import Bytecode.CommandLine

/-!
# Program

Runs the command line on the files of the machine.
-/

namespace Bytecode

namespace CommandLine

/-- Help text. -/
def usage : String :=
  "Rewrite JVM class files so that no method uses jsr/ret subroutines\n\n" ++
  "Usage: [OPTIONS] <INPUT>...\n\n" ++
  "Arguments:\n" ++
  "  <INPUT>...              Class files to rewrite\n\n" ++
  "Options:\n" ++
  "  -o, --output-dir <DIR>  Write rewritten classes here (instead of overwriting the inputs)\n" ++
  "      --inline-all        Rewrite every method, even those without subroutines\n" ++
  "  -k, --keep-going        Leave failing methods unchanged instead of stopping\n" ++
  "      --keep-stack-maps   Skip methods with a StackMapTable instead of dropping the table\n" ++
  "      --verify-only       Only verify the classes, without writing anything\n" ++
  "  -h, --help              Print help\n" ++
  "  -V, --version           Print version\n"

/-- Path of the directory of a file, if the path names one. -/
def parentOf? (path : String) : Option String :=
  match (FileTree.components path).dropLast with
  | [] => none
  | parts => some (FileTree.pathOf parts)

/-- The files of the machine. -/
def machineFiles : FileAccess IO where
  read path := do
    try
      return some (← IO.FS.readBinFile path).toList
    catch _ => return none
  write path bytes := do
    try
      if let some parent := parentOf? path then
        if parent != "" then IO.FS.createDirAll parent
      IO.FS.writeBinFile path (ByteArray.mk bytes.toArray)
      return true
    catch _ => return false

/-- Tell how a run ended. -/
def Ending.print : Ending → IO Unit
  | .misused cause => IO.eprintln s!"error: {cause.message}"
  | .helped => IO.print usage
  | .versioned => IO.println "0.1.0"
  | .failed cause => IO.eprintln s!"Error: {cause.message}"
  | .incomplete methods => IO.eprintln s!"Error: {methods} method(s) could not be rewritten"
  | .done => pure ()

end CommandLine

end Bytecode

/-- Run the command line, telling of failures. -/
def main (arguments : List String) : IO UInt32 := do
  let result ← Bytecode.CommandLine.run Bytecode.CommandLine.machineFiles arguments
  for line in result.lines .warning do
    IO.eprintln line
  result.value.print
  return result.value.exitCode.toUInt32
