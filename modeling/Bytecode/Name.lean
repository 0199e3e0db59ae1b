/-!
# Names of classes, methods and fields

Two kinds of validated names.  An *unqualified* name (of a method or a field) is not empty and has none of
the characters `.`, `;`, `[` and `/`.  A *binary* name (of a class or interface) is a sequence of
unqualified names with slashes between them.  The check is part of each type, so a name that is held is
a valid one.
-/

namespace Bytecode

/-- Why a text is not a name. -/
inductive NameError where
  /-- A method or field name has no character. -/
  | emptyMember
  /-- A character that names cannot have; the offset counts bytes of UTF-8. -/
  | illegalCharacter (offset : Nat) (name : String)
  /-- A class name has no character. -/
  | emptyClass
  /-- A part of a class name, between slashes, is not a name. -/
  | badSegment (name : String) (cause : NameError)
  deriving DecidableEq, Repr

/-- Text of a name error. -/
def NameError.message : NameError → String
  | .emptyMember => "Empty method or field name"
  | .illegalCharacter offset name => s!"Illegal character at {offset} in name '{name}'"
  | .emptyClass => "Empty class name"
  | .badSegment name cause => s!"Bad class name '{name}': {cause.message}"

namespace Name

/-- Characters that have a meaning of their own in descriptors and binary names. -/
def isReserved (c : Char) : Bool := c == '.' || c == ';' || c == '[' || c == '/'

/-- Names of methods and fields. -/
def isUnqualified (cs : List Char) : Bool := !cs.isEmpty && cs.all fun c => !isReserved c

/-- The parts of a text between its slashes; there is always at least one. -/
def segments : List Char → List (List Char)
  | [] => [[]]
  | c :: cs =>
    if c = '/' then [] :: segments cs
    else
      match segments cs with
      | [] => [[c]]
      | segment :: rest => (c :: segment) :: rest

/-- Names of classes and interfaces. -/
def isBinary (cs : List Char) : Bool := (segments cs).all isUnqualified

/-- What is wrong with an invalid method or field name. -/
def unqualifiedFault (cs : List Char) : NameError :=
  if cs.isEmpty then .emptyMember
  else
    let front := cs.takeWhile fun c => !isReserved c
    .illegalCharacter (front.foldl (fun size c => size + c.utf8Size) 0) (String.ofList cs)

/-- What is wrong with an invalid class name: its first bad part. -/
def binaryFault (cs : List Char) : NameError :=
  if cs.isEmpty then .emptyClass
  else
    match (segments cs).find? fun segment => !isUnqualified segment with
    | some segment => .badSegment (String.ofList cs) (unqualifiedFault segment)
    | none => .emptyClass

end Name

/-- A method or field name. -/
structure UnqualifiedName where
  text : String
  valid : Name.isUnqualified text.toList = true
  deriving DecidableEq, Repr

/-- A class or interface name, with slashes between its parts. -/
structure BinaryName where
  text : String
  valid : Name.isBinary text.toList = true
  deriving DecidableEq, Repr

namespace UnqualifiedName

/-- Check a method or field name. -/
def ofString (text : String) : Except NameError UnqualifiedName :=
  if h : Name.isUnqualified text.toList = true then .ok ⟨text, h⟩
  else .error (Name.unqualifiedFault text.toList)

/-- Name of instance initialisers. -/
def init : UnqualifiedName := ⟨"<init>", by decide⟩

/-- Name of class initialisers. -/
def clinit : UnqualifiedName := ⟨"<clinit>", by decide⟩

end UnqualifiedName

namespace BinaryName

/-- Check a class or interface name. -/
def ofString (text : String) : Except NameError BinaryName :=
  if h : Name.isBinary text.toList = true then .ok ⟨text, h⟩
  else .error (Name.binaryFault text.toList)

def object : BinaryName := ⟨"java/lang/Object", by decide⟩
def string : BinaryName := ⟨"java/lang/String", by decide⟩
def classObject : BinaryName := ⟨"java/lang/Class", by decide⟩
def throwable : BinaryName := ⟨"java/lang/Throwable", by decide⟩
def methodHandle : BinaryName := ⟨"java/lang/invoke/MethodHandle", by decide⟩
def methodType : BinaryName := ⟨"java/lang/invoke/MethodType", by decide⟩

theorem ofString_text (name : BinaryName) : ofString name.text = .ok name := by
  simp [ofString, name.valid]

end BinaryName

end Bytecode
