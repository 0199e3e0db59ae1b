import Bytecode.Instruction.Basic

/-!
# Decoded method bodies

The code of a method as a tiling by its instructions.  `Body.scan` decodes instruction after instruction;
`Body.decode` also checks that every position named by an instruction is the start of one.
-/

namespace Bytecode

/-- The instructions of a method, found by index or by position. -/
structure Body where
  instructions : Tiling Instruction

namespace Body

/-- Decode the instructions from a position on, onto those already decoded, until the code ends or an
instruction cannot be decoded.  An instruction takes at least one byte off the code. -/
def scanOnto (length : Nat) (front : Tiling Instruction) (position : Nat) (rest : List UInt8) :
    Tiling Instruction × Option VerifyError :=
  match rest with
  | [] => (front, none)
  | opcode :: operands =>
    match Instruction.decodeFrom length position (opcode :: operands) with
    | .error fault => (front, some (.located position fault))
    | .ok instruction =>
      scanOnto length (front.push instruction) (position + instruction.size)
        (operands.drop (instruction.size - 1))
termination_by rest.length
decreasing_by
  simp only [List.length_drop, List.length_cons]
  omega

/-- All instructions up to the first that cannot be decoded, and what is wrong with that one. -/
def scan (code : List UInt8) : Tiling Instruction × Option VerifyError :=
  scanOnto code.length (Tiling.empty 0) 0 code

/-- Number of instructions. -/
def size (b : Body) : Nat := b.instructions.size

/-- Number of bytes of the code. -/
def codeLength (b : Body) : Nat := b.instructions.stop

/-- The instructions in order. -/
def toList (b : Body) : List Instruction := b.instructions.items

/-- Index of the instruction that starts at a position. -/
def indexOf? (b : Body) (position : Nat) : Option Nat := (b.instructions.locate position).index?

/-- The instruction that starts at a position. -/
def startingAt? (b : Body) (position : Nat) : Option Instruction := (b.instructions.locate position).item?

/-- The instruction with an index. -/
def get? (b : Body) (index : Nat) : Option Instruction := (b.instructions.get? index).map Prod.snd

/-- The first position named by an instruction that is not the start of one. -/
def strayTarget? (b : Body) : Option VerifyError :=
  b.toList.findSome? fun i =>
    (i.targets.find? fun target => (b.indexOf? target).isNone).map fun target =>
      .located i.position (.invalidTarget target)

/-- Decode a method body. -/
def decode (code : List UInt8) : Except VerifyError Body :=
  match scan code with
  | (_, some error) => .error error
  | (instructions, none) =>
    let body : Body := ⟨instructions⟩
    match body.strayTarget? with
    | some error => .error error
    | none => .ok body

/-- Check a position that stands outside of the code, as in an exception table.  The position after the
last instruction is accepted when `allowEnd` is set, because ranges leave out their end.  A position that is
refused is told as a target, with a sign. -/
def checkPosition (b : Body) (position : Nat) (allowEnd : Bool) : Except VerifyError Unit :=
  if (b.indexOf? position).isSome || (allowEnd && position == b.codeLength) then .ok ()
  else .error (.nowhere (.invalidTarget (Word.signed position)))

end Body

end Bytecode
