import Bytecode.Instruction.Basic

/-!
# Moving instructions

A branch or switch names positions relative to its own, so it has to be encoded anew when it or its
targets move.  `Instruction.relocated` does so for an instruction placed at a new position, with a
function that tells where each old target went; the function may fail, or keep notes, in any monad.
-/

namespace Bytecode

namespace Instruction

/-- Distance from one position to another, as a word with a sign. -/
def distance (source target : Nat) : Int := Word.signed ((target : Int) - (source : Int))

/-- Distance of a branch with two bytes. -/
def shortOffset (source target : Nat) : Except VerifyError Int16 :=
  let distance := distance source target
  if -0x8000 ≤ distance ∧ distance < 0x8000 then .ok (Int16.ofInt distance)
  else .error (.located source .offsetOverflow)

/-- Distance of a branch with four bytes, or of a switch. -/
def longOffset (source target : Nat) : Except VerifyError Int32 :=
  let distance := distance source target
  if -0x80000000 ≤ distance ∧ distance < 0x80000000 then .ok (Int32.ofInt distance)
  else .error (.located source .offsetOverflow)

variable {m : Type → Type} [Monad m] [MonadExceptOf VerifyError m]

/-- Distance from a new position to where a switch target went. -/
def switchDistance (place : Nat → m Nat) (position target : Nat) : m Int32 := do
  MonadExcept.ofExcept (longOffset position (← place target))

/-- Encode the cases of a switch. -/
def relocatedCases (place : Nat → m Nat) (position : Nat) : Cases → m (List UInt8)
  | .table low targets => do
    let distances ← targets.mapM (switchDistance place position)
    let high := low + Int32.ofNat targets.length - 1
    return write low ++ write high ++ distances.flatMap write
  | .lookup pairs => do
    let entries ← pairs.mapM fun (key, target) => do
      return write key ++ write (← switchDistance place position target)
    return write (Int32.ofNat pairs.length) ++ entries.flatten

/-- Encode a branch or switch at a new position.  Other instructions are copied or replaced, never
encoded anew. -/
def relocated (i : Instruction) (position : Nat) (place : Nat → m Nat) : m (List UInt8) := do
  match i.flow with
  | .branch _ target =>
    let target ← place target
    if i.opcode = Opcode.gotoW then
      return i.opcode :: write (← MonadExcept.ofExcept (longOffset position target))
    else
      return i.opcode :: write (← MonadExcept.ofExcept (shortOffset position target))
  | .select default cases =>
    let padding := List.replicate (Opcode.switchPadding position) 0
    let default ← switchDistance place position default
    let cases ← relocatedCases place position cases
    return i.opcode :: (padding ++ write default ++ cases)
  | .plain _ | .jsr _ | .ret _ => throw (.located i.position (.unsupportedOpcode i.opcode))

/-- Size of an instruction placed at a new position: only the padding of switches changes. -/
def relocatedSize (i : Instruction) (position : Nat) : Nat :=
  match i.flow with
  | .select _ _ => i.size - Opcode.switchPadding i.position + Opcode.switchPadding position
  | _ => i.size

end Instruction

end Bytecode
