import Bytecode.Binary.BigEndian
import Bytecode.Instruction.Opcode
import Bytecode.Verification.VerifyError

/-!
# Instructions and their decoding

`Instruction.decode` reads the instruction at a position of a code array.  Positions that an instruction
names are checked to be inside the code; that they are starts of instructions is checked once all
instructions are known.
-/

namespace Bytecode

/-- An instruction at its position in the code. -/
structure Instruction where
  position : Nat
  /-- Number of bytes of the encoding, with a `wide` in front and the padding of switches. -/
  size : Nat
  /-- Opcode; of a widened instruction, the opcode that is widened. -/
  opcode : UInt8
  wide : Bool
  flow : Flow
  deriving DecidableEq, Repr

namespace Instruction

instance : Width Instruction := ⟨size⟩

def flags (i : Instruction) : OpcodeFlags := Opcode.flags i.opcode

def mnemonic (i : Instruction) : String := Opcode.mnemonic i.opcode

/-- Position after the instruction. -/
def next (i : Instruction) : Nat := i.position + i.size

/-- The positions that the instruction names, in the order of its operands. -/
def targets (i : Instruction) : List Nat :=
  match i.flow with
  | .plain _ | .ret _ => []
  | .branch _ target | .jsr target => [target]
  | .select default cases => default :: cases.targets

/-! ## Operands -/

/-- A reader of operands. -/
abbrev Operands := StateT (List UInt8) (Except VerifyFault)

/-- A number of `count` bytes. -/
def operand (count : Nat) : Operands Nat := fun input =>
  let front := input.take count
  if front.length = count then .ok (Binary.ofBigEndian front, input.drop count)
  else .error .truncatedInstruction

def byteOperand : Operands UInt8 := UInt8.ofNat <$> operand 1

/-- An index given by one byte. -/
def shortIndex : Operands UInt16 := UInt16.ofNat <$> operand 1

/-- An index given by two bytes. -/
def longIndex : Operands UInt16 := UInt16.ofNat <$> operand 2

def int32Operand : Operands Int32 := (UInt32.toInt32 ∘ UInt32.ofNat) <$> operand 4

/-- A signed distance of two bytes. -/
def shortDistance : Operands Int := (fun n => (UInt16.ofNat n).toInt16.toInt) <$> operand 2

/-- A signed distance of four bytes. -/
def longDistance : Operands Int := (fun n => (UInt32.ofNat n).toInt32.toInt) <$> operand 4

/-! ## Types and kinds by the place of the opcode in its group -/

def numericType : Nat → NumericType
  | 0 => .int
  | 1 => .long
  | 2 => .float
  | _ => .double

def localType : Nat → LocalType
  | 0 => .numeric .int
  | 1 => .numeric .long
  | 2 => .numeric .float
  | 3 => .numeric .double
  | _ => .reference

def arrayElement : Nat → ArrayElement
  | 0 => .int
  | 1 => .long
  | 2 => .float
  | 3 => .double
  | 4 => .reference
  | 5 => .byte
  | 6 => .char
  | _ => .short

def shuffle : Nat → Shuffle
  | 0 => .pop
  | 1 => .pop2
  | 2 => .dup
  | 3 => .dupX1
  | 4 => .dupX2
  | 5 => .dup2
  | 6 => .dup2X1
  | 7 => .dup2X2
  | _ => .swap

/-- The target of the conversion with a place among the three from one source. -/
def conversion (source place : Nat) : Op :=
  .convert (numericType source) (numericType (if place < source then place else place + 1))

/-- Element type of `newarray`. -/
def newArrayType? : Nat → Option BaseType
  | 4 => some .boolean
  | 5 => some .char
  | 6 => some .float
  | 7 => some .double
  | 8 => some .byte
  | 9 => some .short
  | 10 => some .int
  | 11 => some .long
  | _ => none

def branchKind (opcode : Nat) : BranchKind :=
  if 0x99 ≤ opcode ∧ opcode ≤ 0x9E then .ifInt
  else if 0x9F ≤ opcode ∧ opcode ≤ 0xA4 then .ifIntCompare
  else if opcode = 0xA5 ∨ opcode = 0xA6 then .ifRefCompare
  else if opcode = 0xC6 ∨ opcode = 0xC7 then .ifNull
  else .goto

/-- Decode an operation that runs straight on, with the operands after its opcode. -/
def plain (opcode : UInt8) : Operands Op := do
  let n := opcode.toNat
  if n = 0x00 then return .nop
  else if n = 0x01 then return .pushNull
  else if n ≤ 0x08 then return .const .int
  else if n ≤ 0x0A then return .const .long
  else if n ≤ 0x0D then return .const .float
  else if n ≤ 0x0F then return .const .double
  else if n ≤ 0x11 then return .const .int
  else if n = 0x12 then return .ldc (← shortIndex)
  else if n = 0x13 then return .ldc (← longIndex)
  else if n = 0x14 then return .ldc2 (← longIndex)
  else if n ≤ 0x19 then return .load (localType (n - 0x15)) (← shortIndex)
  else if n ≤ 0x2D then return .load (localType ((n - 0x1A) / 4)) (UInt16.ofNat ((n - 0x1A) % 4))
  else if n ≤ 0x35 then return .arrayLoad (arrayElement (n - 0x2E))
  else if n ≤ 0x3A then return .store (localType (n - 0x36)) (← shortIndex)
  else if n ≤ 0x4E then return .store (localType ((n - 0x3B) / 4)) (UInt16.ofNat ((n - 0x3B) % 4))
  else if n ≤ 0x56 then return .arrayStore (arrayElement (n - 0x4F))
  else if n ≤ 0x5F then return .shuffle (shuffle (n - 0x57))
  else if n ≤ 0x73 then return .arithmetic (numericType ((n - 0x60) % 4))
  else if n ≤ 0x77 then return .negate (numericType (n - 0x74))
  else if n ≤ 0x7D then return .shift (numericType ((n - 0x78) % 2))
  else if n ≤ 0x83 then return .arithmetic (numericType ((n - 0x7E) % 2))
  else if n = 0x84 then
    let index ← shortIndex
    let amount ← byteOperand
    return .increment index amount.toInt8.toInt16
  else if n ≤ 0x90 then return conversion ((n - 0x85) / 3) ((n - 0x85) % 3)
  else if n ≤ 0x93 then return .convert .int .int
  else if n = 0x94 then return .compare .long
  else if n ≤ 0x96 then return .compare .float
  else if n ≤ 0x98 then return .compare .double
  else if n ≤ 0xAB then throw (.unsupportedOpcode opcode)
  else if n ≤ 0xB0 then return .leave (some (localType (n - 0xAC)))
  else if n = 0xB1 then return .leave none
  else if n = 0xB2 then return .getStatic (← longIndex)
  else if n = 0xB3 then return .putStatic (← longIndex)
  else if n = 0xB4 then return .getField (← longIndex)
  else if n = 0xB5 then return .putField (← longIndex)
  else if n = 0xB6 then return .invoke .virtual (← longIndex)
  else if n = 0xB7 then return .invoke .special (← longIndex)
  else if n = 0xB8 then return .invoke .static (← longIndex)
  else if n = 0xB9 then return .invoke .interface (← longIndex)
  else if n = 0xBA then return .invokeDynamic (← longIndex)
  else if n = 0xBB then return .newObject (← longIndex)
  else if n = 0xBC then
    let code ← byteOperand
    match newArrayType? code.toNat with
    | some element => return .newArray element
    | none => throw (.badConstant (.arrayTypeCode code))
  else if n = 0xBD then return .newRefArray (← longIndex)
  else if n = 0xBE then return .arrayLength
  else if n = 0xBF then return .throwException
  else if n = 0xC0 then return .checkCast (← longIndex)
  else if n = 0xC1 then return .instanceOf (← longIndex)
  else if n = 0xC2 then return .monitorEnter
  else if n = 0xC3 then return .monitorExit
  else if n = 0xC5 then
    let constant ← longIndex
    return .newMultiArray constant (← byteOperand)
  else throw (.unsupportedOpcode opcode)

/-! ## Control transfer -/

/-- The position at a distance, if it is inside code of a length. -/
def targetAt (length position : Nat) (distance : Int) : Except VerifyFault Nat :=
  let target := (position : Int) + distance
  if target < 0 ∨ (length : Int) ≤ target then .error (.invalidTarget target) else .ok target.toNat

/-- What follows a `wide`: the widened opcode, its size with the `wide`, and what it does. -/
def widened : Operands (Nat × UInt8 × Flow) := do
  let opcode ← byteOperand
  let index ← longIndex
  if opcode = Opcode.iinc then
    let amount ← operand 2
    return (6, opcode, .plain (.increment index (UInt16.ofNat amount).toInt16))
  else if opcode = Opcode.ret then return (4, opcode, .ret index)
  else if Opcode.iload ≤ opcode ∧ opcode ≤ Opcode.aload then
    return (4, opcode, .plain (.load (localType (opcode.toNat - 0x15)) index))
  else if Opcode.istore ≤ opcode ∧ opcode ≤ Opcode.astore then
    return (4, opcode, .plain (.store (localType (opcode.toNat - 0x36)) index))
  else throw .invalidWide

/-- Read the positions of as many table entries as counted, onto those already read (last first). -/
def tableTargets (length position : Nat) : (count : Nat) → List Nat → Operands (List Nat)
  | 0, front => pure front.reverse
  | count + 1, front => do
    let target ← targetAt length position (← longDistance)
    tableTargets length position count (target :: front)

/-- Read as many pairs as counted, onto those already read (last first); keys must ascend. -/
def lookupPairs (length position : Nat) :
    (count : Nat) → List (Int32 × Nat) → Operands (List (Int32 × Nat))
  | 0, front => pure front.reverse
  | count + 1, front => do
    let key ← int32Operand
    let distance ← longDistance
    match front.head? with
    | some (previous, _) => if key ≤ previous then throw .invalidSwitch
    | none => pure ()
    let target ← targetAt length position distance
    lookupPairs length position count ((key, target) :: front)

/-- Fail unless so many bytes of operands are left. -/
def needBytes (count : Nat) : Operands Unit := do
  if (← get).length < count then throw .truncatedInstruction

/-- Operands of a switch after the padding: their size, the default position and the cases. -/
def switchOperands (length position : Nat) (opcode : UInt8) : Operands (Nat × Nat × Cases) := do
  let default ← targetAt length position (← longDistance)
  if opcode = Opcode.tableswitch then
    let low ← int32Operand
    let high ← int32Operand
    if high < low then throw .invalidSwitch
    let count := (high.toInt - low.toInt + 1).toNat
    needBytes (count * 4)
    return (12 + 4 * count, default, .table low (← tableTargets length position count []))
  else
    let pairs ← int32Operand
    if pairs < 0 then throw .invalidSwitch
    let count := pairs.toInt.toNat
    needBytes (count * 8)
    return (8 + 8 * count, default, .lookup (← lookupPairs length position count []))

/-- What an opcode other than `wide` and the switches does. -/
def fixedFlow (length position : Nat) (opcode : UInt8) : Operands Flow := do
  let n := opcode.toNat
  if 0x99 ≤ n ∧ n ≤ 0xA8 ∨ n = 0xC6 ∨ n = 0xC7 then
    let target ← targetAt length position (← shortDistance)
    if opcode = Opcode.jsr then return .jsr target else return .branch (branchKind n) target
  else if opcode = Opcode.gotoW ∨ opcode = Opcode.jsrW then
    let target ← targetAt length position (← longDistance)
    if opcode = Opcode.jsrW then return .jsr target else return .branch .goto target
  else if opcode = Opcode.ret then return .ret (← shortIndex)
  else return .plain (← plain opcode)

/-- Decode the instruction at `position` of code with a `length`, given the code from there on. -/
def decodeFrom (length position : Nat) (rest : List UInt8) : Except VerifyFault Instruction :=
  match rest with
  | [] => .error .truncatedInstruction
  | opcode :: operands =>
    if opcode = Opcode.wide then do
      let ((size, opcode, flow), _) ← widened.run operands
      return ⟨position, size, opcode, true, flow⟩
    else if opcode = Opcode.tableswitch ∨ opcode = Opcode.lookupswitch then do
      let padding := Opcode.switchPadding position
      if length - position - 1 < padding then throw .truncatedInstruction
      let ((size, default, cases), _) ←
        (switchOperands length position opcode).run (operands.drop padding)
      return ⟨position, 1 + padding + size, opcode, false, .select default cases⟩
    else
      match Opcode.fixedLength? opcode with
      | none => .error (.unsupportedOpcode opcode)
      | some size => do
        if length < position + size then throw .truncatedInstruction
        let (flow, _) ← (fixedFlow length position opcode).run operands
        return ⟨position, size, opcode, false, flow⟩

/-- Decode the instruction at a position of the code. -/
def decode (code : List UInt8) (position : Nat) : Except VerifyError Instruction :=
  atPosition position (decodeFrom code.length position (code.drop position))

end Instruction

end Bytecode
