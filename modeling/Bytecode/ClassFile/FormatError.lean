import Bytecode.Hex
import Bytecode.Name

/-!
# What can be wrong with a class file

Causes for refusing the bytes of a class file, and their texts.
-/

namespace Bytecode

/-- Kinds of constants, as named in messages. -/
inductive ConstantKind where
  | utf8 | integer | float | long | double | classInfo | string | field | method | nameAndType
  | methodHandle | methodType | dynamic | invokeDynamic | moduleInfo | packageInfo
  deriving DecidableEq, Repr

def ConstantKind.name : ConstantKind → String
  | .utf8 => "Utf8"
  | .integer => "Integer"
  | .float => "Float"
  | .long => "Long"
  | .double => "Double"
  | .classInfo => "Class"
  | .string => "String"
  | .field => "Fieldref"
  | .method => "Methodref"
  | .nameAndType => "NameAndType"
  | .methodHandle => "MethodHandle"
  | .methodType => "MethodType"
  | .dynamic => "Dynamic"
  | .invokeDynamic => "InvokeDynamic"
  | .moduleInfo => "Module"
  | .packageInfo => "Package"

/-- Why a class file is refused. -/
inductive FormatError where
  /-- The first four bytes are not those of a class file. -/
  | badMagic (found : UInt32)
  /-- The input ends too early. -/
  | truncated
  | badConstantTag (tag : UInt8) (index : UInt16)
  /-- A constant pool index does not lead to a constant of the needed kind. -/
  | badConstantIndex (index : UInt16) (expected : ConstantKind)
  | badUtf8
  | badHandleKind (kind : UInt8)
  /-- A class or method has a name that is none. -/
  | badName (cause : NameError)
  | badDescriptor (text : String)
  /-- The contents of an attribute go on after its end. -/
  | trailingBytes (name : String) (extra : Nat)
  /-- The file cannot be read. -/
  | unreadable
  deriving DecidableEq, Repr

/-- Text of a format error. -/
def FormatError.message : FormatError → String
  | .badMagic found => s!"Bad magic header {Hex.marked 8 found.toNat}"
  | .truncated => "Unexpected end of input"
  | .badConstantTag tag index => s!"Unknown tag {tag.toNat} for constant at index {index.toNat}"
  | .badConstantIndex index expected =>
    s!"Constant pool index {index.toNat} is not a {expected.name} constant"
  | .badUtf8 => "Invalid modified UTF-8 string"
  | .badHandleKind kind => s!"Unknown method handle kind {kind.toNat}"
  | .badName cause => s!"Malformed descriptor or name '{cause.message}'"
  | .badDescriptor text => s!"Malformed descriptor or name '{text}'"
  | .trailingBytes name extra => s!"Attribute '{name}' has {extra} unexpected trailing bytes"
  | .unreadable => "I/O error"

end Bytecode
