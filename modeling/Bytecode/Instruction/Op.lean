import Bytecode.Descriptor.Basic

/-!
# Operations

What an instruction does, free of how its operands are encoded: `iload_1` and `iload 1` are the same
operation, and so are `bipush` and `iconst_2`.  Operations that run straight on are an `Op`; those that
transfer control are listed in `Flow`.
-/

namespace Bytecode

/-- Types with arithmetic. -/
inductive NumericType where
  | int | long | float | double
  deriving DecidableEq, Repr

/-- Types of local variables and returned values, as far as opcodes tell them apart. -/
inductive LocalType where
  | numeric (type : NumericType)
  | reference
  deriving DecidableEq, Repr

/-- Types of array elements, as far as opcodes tell them apart; `byte` is also for booleans. -/
inductive ArrayElement where
  | int | long | float | double | reference | byte | char | short
  deriving DecidableEq, Repr

/-- How a method is called. -/
inductive InvokeKind where
  | virtual | special | static | interface
  deriving DecidableEq, Repr

/-- Instructions that only move words of the operand stack. -/
inductive Shuffle where
  | pop | pop2 | dup | dupX1 | dupX2 | dup2 | dup2X1 | dup2X2 | swap
  deriving DecidableEq, Repr

/-- Operations that run straight on.  Numbers of type `UInt16` are constant pool indices or, in
`load`, `store` and `increment`, local variables. -/
inductive Op where
  | nop
  | pushNull
  | const (type : NumericType)
  /-- Load a constant of one word. -/
  | ldc (constant : UInt16)
  /-- Load a constant of two words. -/
  | ldc2 (constant : UInt16)
  | load (type : LocalType) (index : UInt16)
  | store (type : LocalType) (index : UInt16)
  | arrayLoad (element : ArrayElement)
  | arrayStore (element : ArrayElement)
  | shuffle (how : Shuffle)
  /-- Two operands and a result of one type. -/
  | arithmetic (type : NumericType)
  | negate (type : NumericType)
  /-- The amount of a shift is an `int`. -/
  | shift (type : NumericType)
  | increment (index : UInt16) (amount : Int16)
  | convert (source target : NumericType)
  | compare (type : NumericType)
  /-- Return from the method, with a value of a type or without. -/
  | leave (type : Option LocalType)
  | throwException
  | getStatic (constant : UInt16)
  | putStatic (constant : UInt16)
  | getField (constant : UInt16)
  | putField (constant : UInt16)
  | invoke (kind : InvokeKind) (constant : UInt16)
  | invokeDynamic (constant : UInt16)
  | newObject (constant : UInt16)
  | newArray (element : BaseType)
  | newRefArray (constant : UInt16)
  | arrayLength
  | checkCast (constant : UInt16)
  | instanceOf (constant : UInt16)
  | monitorEnter
  | monitorExit
  | newMultiArray (constant : UInt16) (dimensions : UInt8)
  deriving DecidableEq, Repr

/-- What a branch pops before it decides. -/
inductive BranchKind where
  /-- One `int`, compared with zero. -/
  | ifInt
  /-- Two `int`s. -/
  | ifIntCompare
  /-- Two references. -/
  | ifRefCompare
  /-- One reference. -/
  | ifNull
  /-- Nothing: the branch is always taken. -/
  | goto
  deriving DecidableEq, Repr

/-- The keys of a switch, each with the position it leads to. -/
inductive Cases where
  /-- Consecutive keys from `low` on. -/
  | table (low : Int32) (targets : List Nat)
  /-- Keys in ascending order. -/
  | lookup (pairs : List (Int32 × Nat))
  deriving DecidableEq, Repr

def Cases.targets : Cases → List Nat
  | .table _ targets => targets
  | .lookup pairs => pairs.map Prod.snd

/-- Where control goes after an instruction; positions count from the start of the code. -/
inductive Flow where
  | plain (op : Op)
  | branch (kind : BranchKind) (target : Nat)
  | select (default : Nat) (cases : Cases)
  /-- Call the subroutine at a position. -/
  | jsr (target : Nat)
  /-- Return from a subroutine to the address in a local variable. -/
  | ret (index : UInt16)
  deriving DecidableEq, Repr

/-! ## Names in listings -/

def NumericType.name : NumericType → String
  | .int => "Int"
  | .long => "Long"
  | .float => "Float"
  | .double => "Double"

def LocalType.name : LocalType → String
  | .numeric type => type.name
  | .reference => "Reference"

def ArrayElement.name : ArrayElement → String
  | .int => "Int"
  | .long => "Long"
  | .float => "Float"
  | .double => "Double"
  | .reference => "Reference"
  | .byte => "Byte"
  | .char => "Char"
  | .short => "Short"

def InvokeKind.name : InvokeKind → String
  | .virtual => "Virtual"
  | .special => "Special"
  | .static => "Static"
  | .interface => "Interface"

def Shuffle.name : Shuffle → String
  | .pop => "Pop"
  | .pop2 => "Pop2"
  | .dup => "Dup"
  | .dupX1 => "DupX1"
  | .dupX2 => "DupX2"
  | .dup2 => "Dup2"
  | .dup2X1 => "Dup2X1"
  | .dup2X2 => "Dup2X2"
  | .swap => "Swap"

def BranchKind.name : BranchKind → String
  | .ifInt => "IfInt"
  | .ifIntCompare => "IfIntCompare"
  | .ifRefCompare => "IfRefCompare"
  | .ifNull => "IfNull"
  | .goto => "Goto"

/-- Name of an operation with its operands. -/
def Op.listing : Op → String
  | .nop => "Nop"
  | .pushNull => "AConstNull"
  | .const type => s!"Const({type.name})"
  | .ldc constant => s!"Ldc({constant.toNat})"
  | .ldc2 constant => s!"Ldc2({constant.toNat})"
  | .load type index => s!"Load({type.name}, {index.toNat})"
  | .store type index => s!"Store({type.name}, {index.toNat})"
  | .arrayLoad element => s!"ArrayLoad({element.name})"
  | .arrayStore element => s!"ArrayStore({element.name})"
  | .shuffle how => how.name
  | .arithmetic type => s!"Arithmetic({type.name})"
  | .negate type => s!"Neg({type.name})"
  | .shift type => s!"Shift({type.name})"
  | .increment index amount => s!"IInc({index.toNat}, {amount.toInt})"
  | .convert source target => s!"Convert({source.name}, {target.name})"
  | .compare type => s!"Compare({type.name})"
  | .leave none => "Return(None)"
  | .leave (some type) => s!"Return(Some({type.name}))"
  | .throwException => "AThrow"
  | .getStatic constant => s!"GetStatic({constant.toNat})"
  | .putStatic constant => s!"PutStatic({constant.toNat})"
  | .getField constant => s!"GetField({constant.toNat})"
  | .putField constant => s!"PutField({constant.toNat})"
  | .invoke kind constant => s!"Invoke({kind.name}, {constant.toNat})"
  | .invokeDynamic constant => s!"InvokeDynamic({constant.toNat})"
  | .newObject constant => s!"New({constant.toNat})"
  | .newArray element => s!"NewArray({element.name})"
  | .newRefArray constant => s!"ANewArray({constant.toNat})"
  | .arrayLength => "ArrayLength"
  | .checkCast constant => s!"CheckCast({constant.toNat})"
  | .instanceOf constant => s!"InstanceOf({constant.toNat})"
  | .monitorEnter => "MonitorEnter"
  | .monitorExit => "MonitorExit"
  | .newMultiArray constant dimensions => s!"MultiANewArray({constant.toNat}, {dimensions.toNat})"

end Bytecode
