import Bytecode.ClassFile.FormatError
import Bytecode.Verification.VType

/-!
# Why a method is refused

Causes for refusing a method while it is decoded, verified or inlined, and their texts.
-/

namespace Bytecode

/-- What is wrong with a constant used by an instruction. -/
inductive ConstantFault where
  /-- `newarray` with a number that is no type. -/
  | arrayTypeCode (code : UInt8)
  /-- A constant of two words loaded as one. -/
  | twoWords (index : UInt16)
  /-- A constant of one word loaded as two. -/
  | oneWord (index : UInt16)
  /-- A constructor called in another way than constructors are. -/
  | constructorCall (index : UInt16)
  | newOfArray (type : RefType)
  | dimensions (count : UInt8) (type : RefType)
  | notLoadable (kind : ConstantKind) (index : UInt16)
  | missing (index : UInt16)
  | malformed (cause : FormatError)
  | arrayCaught
  deriving DecidableEq, Repr

def ConstantFault.message : ConstantFault → String
  | .arrayTypeCode code => s!"newarray type {code.toNat}"
  | .twoWords index => s!"ldc of category 2 constant {index.toNat}"
  | .oneWord index => s!"ldc2_w of category 1 constant {index.toNat}"
  | .constructorCall index =>
    s!"<init> must be called with invokespecial and return void (constant {index.toNat})"
  | .newOfArray type => s!"new of array class {type.constantName}"
  | .dimensions count type =>
    s!"multianewarray with {count.toNat} dimensions of {type.constantName}"
  | .notLoadable kind index => s!"{kind.name} constant at index {index.toNat} is not loadable"
  | .missing index => s!"no constant at index {index.toNat}"
  | .malformed cause => cause.message
  | .arrayCaught => "array class as catch type"

/-- What an instruction asks of an operand. -/
inductive Expectation where
  /-- A value of exactly this type. -/
  | exactly (type : VType)
  | reference
  | referenceOrReturnAddress
  | object
  | uninitializedObject
  | array
  | arrayOf (element : ArrayElement)
  /-- An object on which a method of a class is called. -/
  | receiver (owner : RefType)
  | throwable
  deriving DecidableEq, Repr

def Expectation.describe : Expectation → String
  | .exactly type => type.render
  | .reference => "reference"
  | .referenceOrReturnAddress => "reference or returnAddress"
  | .object => "object"
  | .uninitializedObject => "uninitialized object"
  | .array => "array"
  | .arrayOf element => s!"{element.name} array"
  | .receiver owner => owner.constantName
  | .throwable => "java/lang/Throwable"

/-- Why a method is refused, without the place. -/
inductive VerifyFault where
  | invalidTarget (target : Int)
  | fallsOffEnd
  | multipleReturns
  | retOutsideSubroutine
  | illegalReturn
  | recursiveSubroutine
  | subroutineMerge
  | notReturnAddress (index : UInt16)
  | inconsistentRetNesting
  | unsupportedOpcode (opcode : UInt8)
  | truncatedInstruction
  | invalidSwitch
  | invalidWide
  | emptyStack
  | stackOverflow
  | invalidLocal (index : UInt16)
  | incompatibleType (expected : Expectation) (found : VType)
  /-- An argument of a call does not have the type of its parameter. -/
  | incompatibleArgument (expected found : VType)
  | invalidWidth
  | stackHeightMismatch
  | incompatibleStackSlot
  | badConstant (fault : ConstantFault)
  | badDescriptor (text : String)
  /-- A method is named by something that is no name. -/
  | badMethodName (cause : NameError)
  | badReturn
  | offsetOverflow
  | missingDuplicate (position : Nat)
  | missingContinuation
  | codeTooLarge (size : Nat)
  deriving DecidableEq, Repr

/-- Text of a fault. -/
def VerifyFault.message : VerifyFault → String
  | .invalidTarget target =>
    s!"Invalid branch target or exception handler entry position ({target})"
  | .fallsOffEnd => "Execution falls off end of method"
  | .multipleReturns => "Multiple returns to single JSR"
  | .retOutsideSubroutine => "RET instruction outside of a subroutine"
  | .illegalReturn => "Illegal return from subroutine"
  | .recursiveSubroutine => "Recursive subroutine call"
  | .subroutineMerge => "Two subroutines cannot merge to a single RET"
  | .notReturnAddress index => s!"Local {index.toNat} does not hold a return address"
  | .inconsistentRetNesting => "RET returns from inconsistent numbers of nested subroutines"
  | .unsupportedOpcode opcode => s!"Unsupported opcode {Hex.marked 2 opcode.toNat}"
  | .truncatedInstruction => "Instruction operands extend past the end of the code"
  | .invalidSwitch => "Malformed switch instruction"
  | .invalidWide => "WIDE applied to an instruction that cannot be widened"
  | .emptyStack => "Pop from an empty operand stack"
  | .stackOverflow => "Operand stack exceeds max_stack"
  | .invalidLocal index => s!"Local variable index {index.toNat} exceeds max_locals"
  | .incompatibleType expected found => s!"Expected {expected.describe} but found {found.render}"
  | .incompatibleArgument expected found => s!"Expected {expected.render} but found {found.render}"
  | .invalidWidth => "Operation splits a category 2 value"
  | .stackHeightMismatch => "Operand stack heights differ at merge point"
  | .incompatibleStackSlot => "Incompatible operand stack types at merge point"
  | .badConstant fault => s!"Bad constant reference: {fault.message}"
  | .badDescriptor text => s!"Malformed method descriptor '{text}'"
  | .badMethodName cause => s!"Malformed method descriptor '{cause.message}'"
  | .badReturn => "Return instruction does not match the method return type"
  | .offsetOverflow =>
    "Subroutine inlining expansion caused an offset to grow beyond what a branch instruction can encode"
  | .missingDuplicate position =>
    s!"Cannot find new position for instruction that used to be at {position}"
  | .missingContinuation => "Subroutine call has no continuation to return to"
  | .codeTooLarge size =>
    s!"Rewritten code is {size} bytes long, which exceeds the 65535 byte limit"

/-- Why a method is refused, and where if there is a place. -/
structure VerifyError where
  position : Option Nat
  fault : VerifyFault
  deriving DecidableEq, Repr

namespace VerifyError

/-- A fault of the instruction at a position. -/
def located (position : Nat) (fault : VerifyFault) : VerifyError := ⟨some position, fault⟩

/-- A fault without a place. -/
def nowhere (fault : VerifyFault) : VerifyError := ⟨none, fault⟩

/-- Text of an error. -/
def message (e : VerifyError) : String :=
  match e.position with
  | some position => s!"Verify error at position {position}: {e.fault.message}"
  | none => s!"Verify error: {e.fault.message}"

end VerifyError

/-- Give the faults of a computation a position. -/
def atPosition {α : Type} (position : Nat) : Except VerifyFault α → Except VerifyError α :=
  Except.mapError (VerifyError.located position)

end Bytecode
