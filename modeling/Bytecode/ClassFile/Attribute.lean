import Bytecode.ClassFile.ConstantPool

/-!
# Attributes

Classes, fields, methods and code carry named attributes.  Every attribute is kept as its name and its
bytes.  Those that matter for method bodies have contents of their own type (`AttributeContents`): the code of a
method with its exception table, the table of line numbers, and the two tables of local variables.
-/

namespace Bytecode

/-- A named attribute with its contents in bytes. -/
structure Attribute where
  nameIndex : ConstantIndex
  info : List UInt8
  deriving DecidableEq, Repr

instance : Serial Attribute where
  write a := write a.nameIndex ++ Binary.sized 4 a.info
  read := return ⟨← read, ← Binary.readSized 4⟩

/-- Contents of the attributes with a certain name. -/
class AttributeContents (α : Type) extends Serial α where
  attributeName : String

export AttributeContents (attributeName)

namespace Attribute

def name (a : Attribute) (pool : ConstantPool) : Except FormatError String := pool.utf8 a.nameIndex

/-- Does the attribute have a certain name? -/
def isNamed (a : Attribute) (name : String) (pool : ConstantPool) : Bool :=
  match a.name pool with
  | .ok found => found == name
  | .error _ => false

/-- Read the contents, which must take up all bytes. -/
def decode (α : Type) [AttributeContents α] (a : Attribute) : Except FormatError α :=
  match (read : Reader α).on a.info with
  | .error e => .error e
  | .ok (contents, []) => .ok contents
  | .ok (_, rest) => .error (.trailingBytes (attributeName α) rest.length)

/-- Make an attribute, adding its name to the pool when needed. -/
def encode {α : Type} [AttributeContents α] (contents : α) : StateM ConstantPool Attribute := do
  let nameIndex ← ConstantPool.internUtf8 (attributeName α)
  return ⟨nameIndex, write contents⟩

/-- Put other contents into an attribute, keeping its name. -/
def withContents {α : Type} [Serial α] (a : Attribute) (contents : α) : Attribute :=
  { a with info := write contents }

end Attribute

/-- An exception handler: where it protects, where it starts and what it catches. -/
structure ExceptionHandler where
  /-- First protected position. -/
  startPc : UInt16
  /-- Position after the last protected one. -/
  endPc : UInt16
  handlerPc : UInt16
  /-- Class of the exceptions caught; zero catches all. -/
  catchType : ConstantIndex
  deriving DecidableEq, Repr

instance : Serial ExceptionHandler where
  write h := write h.startPc ++ write h.endPc ++ write h.handlerPc ++ write h.catchType
  read := return ⟨← read, ← read, ← read, ← read⟩

/-- Body of a method. -/
structure Code where
  maxStack : UInt16
  maxLocals : UInt16
  bytes : List UInt8
  exceptionTable : List ExceptionHandler
  attributes : List Attribute
  deriving DecidableEq, Repr

instance : AttributeContents Code where
  attributeName := "Code"
  write c :=
    write c.maxStack ++ write c.maxLocals ++ Binary.sized 4 c.bytes ++ write c.exceptionTable ++
      write c.attributes
  read := return ⟨← read, ← read, ← Binary.readSized 4, ← read, ← read⟩

/-- From a position on, code belongs to a source line. -/
structure LineNumber where
  startPc : UInt16
  line : UInt16
  deriving DecidableEq, Repr

instance : Serial LineNumber where
  write n := write n.startPc ++ write n.line
  read := return ⟨← read, ← read⟩

/-- Source lines of the code. -/
structure LineNumberTable where
  entries : List LineNumber
  deriving DecidableEq, Repr

instance : AttributeContents LineNumberTable where
  attributeName := "LineNumberTable"
  write t := write t.entries
  read := return ⟨← read⟩

/-- A source variable that lives in a local slot from `startPc` on, for `length` bytes of code. -/
structure LocalVariable where
  startPc : UInt16
  length : UInt16
  nameIndex : ConstantIndex
  /-- Descriptor or generic signature. -/
  typeIndex : ConstantIndex
  slot : UInt16
  deriving DecidableEq, Repr

instance : Serial LocalVariable where
  write v :=
    write v.startPc ++ write v.length ++ write v.nameIndex ++ write v.typeIndex ++ write v.slot
  read := return ⟨← read, ← read, ← read, ← read, ← read⟩

/-- Local variables with their descriptors. -/
structure LocalVariableTable where
  entries : List LocalVariable
  deriving DecidableEq, Repr

instance : AttributeContents LocalVariableTable where
  attributeName := "LocalVariableTable"
  write t := write t.entries
  read := return ⟨← read⟩

/-- Local variables with their generic signatures. -/
structure LocalVariableTypeTable where
  entries : List LocalVariable
  deriving DecidableEq, Repr

instance : AttributeContents LocalVariableTypeTable where
  attributeName := "LocalVariableTypeTable"
  write t := write t.entries
  read := return ⟨← read⟩

/-- Name of the attribute with the types at branch targets. -/
def Code.stackMapTable : String := "StackMapTable"

end Bytecode
