import Bytecode.Binary.BigEndian
import Bytecode.Binary.ModifiedUtf8
import Bytecode.Tiling

/-!
# Constants

The entries of a constant pool and their encoding: a tag byte, then the contents.  Constants refer to one
another by index.  Floating point constants are held as their bits; `Constant.same` compares them as
numbers, so both zeros are the same constant and a NaN is never the same as any.
-/

namespace Bytecode

/-- Index into the constant pool. -/
abbrev ConstantIndex := UInt16

/-- What a method handle does with its member. -/
inductive HandleKind where
  | getField | getStatic | putField | putStatic | invokeVirtual | invokeStatic | invokeSpecial
  | newInvokeSpecial | invokeInterface
  deriving DecidableEq, Repr

namespace HandleKind

def code : HandleKind → UInt8
  | .getField => 1
  | .getStatic => 2
  | .putField => 3
  | .putStatic => 4
  | .invokeVirtual => 5
  | .invokeStatic => 6
  | .invokeSpecial => 7
  | .newInvokeSpecial => 8
  | .invokeInterface => 9

def ofCode? : UInt8 → Option HandleKind
  | 1 => some .getField
  | 2 => some .getStatic
  | 3 => some .putField
  | 4 => some .putStatic
  | 5 => some .invokeVirtual
  | 6 => some .invokeStatic
  | 7 => some .invokeSpecial
  | 8 => some .newInvokeSpecial
  | 9 => some .invokeInterface
  | _ => none

def name : HandleKind → String
  | .getField => "GetField"
  | .getStatic => "GetStatic"
  | .putField => "PutField"
  | .putStatic => "PutStatic"
  | .invokeVirtual => "InvokeVirtual"
  | .invokeStatic => "InvokeStatic"
  | .invokeSpecial => "InvokeSpecial"
  | .newInvokeSpecial => "NewInvokeSpecial"
  | .invokeInterface => "InvokeInterface"

theorem ofCode?_code (kind : HandleKind) : ofCode? kind.code = some kind := by
  cases kind <;> rfl

instance : Serial HandleKind where
  write kind := write kind.code
  read := do
    let code : UInt8 ← read
    match ofCode? code with
    | some kind => return kind
    | none => throw (.badHandleKind code)

end HandleKind

/-- An entry of a constant pool. -/
inductive Constant where
  | utf8 (text : String)
  | integer (value : Int32)
  | float (bits : UInt32)
  | long (value : Int64)
  | double (bits : UInt64)
  | classInfo (name : ConstantIndex)
  | string (text : ConstantIndex)
  | field (owner nameAndType : ConstantIndex)
  | method (owner nameAndType : ConstantIndex) (ofInterface : Bool)
  | nameAndType (name descriptor : ConstantIndex)
  | methodHandle (kind : HandleKind) (member : ConstantIndex)
  | methodType (descriptor : ConstantIndex)
  | dynamic (bootstrap : UInt16) (nameAndType : ConstantIndex)
  | invokeDynamic (bootstrap : UInt16) (nameAndType : ConstantIndex)
  | moduleInfo (name : ConstantIndex)
  | packageInfo (name : ConstantIndex)
  deriving DecidableEq, Repr

namespace Constant

def kind : Constant → ConstantKind
  | .utf8 _ => .utf8
  | .integer _ => .integer
  | .float _ => .float
  | .long _ => .long
  | .double _ => .double
  | .classInfo _ => .classInfo
  | .string _ => .string
  | .field _ _ => .field
  | .method _ _ _ => .method
  | .nameAndType _ _ => .nameAndType
  | .methodHandle _ _ => .methodHandle
  | .methodType _ => .methodType
  | .dynamic _ _ => .dynamic
  | .invokeDynamic _ _ => .invokeDynamic
  | .moduleInfo _ => .moduleInfo
  | .packageInfo _ => .packageInfo

/-- Eight-byte constants take two indices. -/
instance : Width Constant where
  width
    | .long _ | .double _ => 2
    | _ => 1

theorem width_pos (c : Constant) : 0 < width c := by
  cases c <;> simp [width]

theorem width_le (c : Constant) : width c ≤ 2 := by
  cases c <;> simp [width]

/-- Magnitude bits of a single precision number. -/
def magnitude32 (bits : UInt32) : Nat := bits.toNat % 0x80000000

/-- Magnitude bits of a double precision number. -/
def magnitude64 (bits : UInt64) : Nat := bits.toNat % 0x8000000000000000

/-- Equality of single precision numbers. -/
def sameFloat (a b : UInt32) : Bool :=
  magnitude32 a ≤ 0x7F800000 && magnitude32 b ≤ 0x7F800000 &&
    (a == b || (magnitude32 a == 0 && magnitude32 b == 0))

/-- Equality of double precision numbers. -/
def sameDouble (a b : UInt64) : Bool :=
  magnitude64 a ≤ 0x7FF0000000000000 && magnitude64 b ≤ 0x7FF0000000000000 &&
    (a == b || (magnitude64 a == 0 && magnitude64 b == 0))

/-- Are two constants interchangeable?  Floating point numbers are compared as numbers. -/
def same : Constant → Constant → Bool
  | .float a, .float b => sameFloat a b
  | .double a, .double b => sameDouble a b
  | a, b => decide (a = b)

/-- The bytes of a constant. -/
def bytes : Constant → List UInt8
  | .utf8 text => 1 :: Binary.sized 2 (ModifiedUtf8.encode text)
  | .integer value => 3 :: write value
  | .float bits => 4 :: write bits
  | .long value => 5 :: write value
  | .double bits => 6 :: write bits
  | .classInfo name => 7 :: write name
  | .string text => 8 :: write text
  | .field owner signature => 9 :: (write owner ++ write signature)
  | .method owner signature ofInterface =>
    (if ofInterface then 11 else 10) :: (write owner ++ write signature)
  | .nameAndType name descriptor => 12 :: (write name ++ write descriptor)
  | .methodHandle kind member => 15 :: (write kind ++ write member)
  | .methodType descriptor => 16 :: write descriptor
  | .dynamic bootstrap signature => 17 :: (write bootstrap ++ write signature)
  | .invokeDynamic bootstrap signature => 18 :: (write bootstrap ++ write signature)
  | .moduleInfo name => 19 :: write name
  | .packageInfo name => 20 :: write name

/-- Text that follows its length in bytes. -/
def readText : Reader String := do
  match ModifiedUtf8.decode? (← Binary.readSized 2) with
  | some text => return text
  | none => throw .badUtf8

/-- Read the constant that will have an index; the index is only named when the tag is unknown. -/
def readAt (index : UInt16) : Reader Constant := do
  let tag : UInt8 ← read
  match tag with
  | 1 => return .utf8 (← readText)
  | 3 => return .integer (← read)
  | 4 => return .float (← read)
  | 5 => return .long (← read)
  | 6 => return .double (← read)
  | 7 => return .classInfo (← read)
  | 8 => return .string (← read)
  | 9 => return .field (← read) (← read)
  | 10 => return .method (← read) (← read) false
  | 11 => return .method (← read) (← read) true
  | 12 => return .nameAndType (← read) (← read)
  | 15 => return .methodHandle (← read) (← read)
  | 16 => return .methodType (← read)
  | 17 => return .dynamic (← read) (← read)
  | 18 => return .invokeDynamic (← read) (← read)
  | 19 => return .moduleInfo (← read)
  | 20 => return .packageInfo (← read)
  | _ => throw (.badConstantTag tag index)

end Constant

end Bytecode
