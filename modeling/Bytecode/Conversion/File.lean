import Bytecode.Conversion.Basic
import Bytecode.FileTree

/-!
# Conversion of files

A class is read from a file, converted and written to a file, which may be the same.  When the conversion
fails, nothing is written.
-/

namespace Bytecode

/-- Why the conversion of a file failed. -/
inductive FileFailure where
  /-- The file cannot be read or written. -/
  | file (cause : Failure)
  | method (failure : MethodFailure)
  deriving DecidableEq, Repr

def FileFailure.message : FileFailure → String
  | .file cause => cause.message
  | .method failure => failure.message

namespace FileAccess

variable {m : Type → Type} [Monad m]

/-- Read a class from a file. -/
def readClass (files : FileAccess m) (path : String) : m (Except FormatError ClassFile) := do
  match ← files.read path with
  | none => return .error .unreadable
  | some bytes => return ClassFile.ofBytes bytes

/-- Convert the class in a file into another file. -/
def convert (files : FileAccess m) (settings : Settings) (recording : Bool) (input output : String) :
    m (Traced (Except FileFailure Report)) := do
  match ← files.readClass input with
  | .error e => return ⟨.error (.file (.format e)), [.reading input]⟩
  | .ok c =>
    let conversion := c.convert settings none recording
    let events := .reading input :: conversion.events
    match conversion.value.result with
    | .error failure => return ⟨.error (.method failure), events⟩
    | .ok report =>
      let writing : Event :=
        .writing output report.inlined.length report.unchanged report.failures.length
      if ← files.write output conversion.value.classFile.toBytes then
        return ⟨.ok report, events ++ [writing]⟩
      else return ⟨.error (.file .unwritable), events ++ [writing]⟩

end FileAccess

end Bytecode
