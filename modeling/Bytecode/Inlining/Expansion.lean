import Bytecode.Inlining.Call
import Bytecode.Instruction.Relocation
import Bytecode.Verification.Method

/-!
# Copies of instructions

Inlining makes one copy of a subroutine body for every call, right after the `jsr` that makes the call.
`Verified.copiesIn` lists the copies in the order of the new code.  Then `Expansion.bindReturns` finds the copy
that each `ret` goes on with.

* A `jsr` right in front of its copy of the body is left out, and so is the instruction that stores the return
  address.
* A `ret` right in front of the code after its `jsr` is left out; otherwise it becomes a `goto`.
-/

namespace Bytecode

/-- What becomes of a copy of an instruction. -/
inductive Disposition where
  /-- Written as it is, branches and switches with new distances. -/
  | keep
  /-- A `jsr` that becomes a `goto` to the copy of the body in `callee`. -/
  | jsrGoto (callee : Call)
  /-- A `ret` that becomes a `goto` to the copy with this number. -/
  | retGoto (target : Nat)
  /-- Left out. -/
  | skip
  deriving DecidableEq, Repr

namespace Disposition

def name : Disposition → String
  | .keep => "Keep"
  | .jsrGoto _ => "JsrGoto"
  | .retGoto _ => "RetGoto"
  | .skip => "Skip"

def isEmitted : Disposition → Bool
  | .skip => false
  | _ => true

/-- Number of bytes that an instruction takes up at a new position. -/
def sizeAt (d : Disposition) (i : Instruction) (position : Nat) : Nat :=
  match d with
  | .skip => 0
  | .retGoto _ => 3
  | .jsrGoto _ => i.size
  | .keep => i.relocatedSize position

end Disposition

/-- A copy of an instruction. -/
structure Copy where
  /-- Index of the instruction. -/
  index : Nat
  instruction : Instruction
  /-- The call that the copy belongs to. -/
  call : Call
  disposition : Disposition
  deriving DecidableEq, Repr

namespace Copy

/-- Where the instruction was. -/
def position (c : Copy) : Nat := c.instruction.position

def isEmitted (c : Copy) : Bool := c.disposition.isEmitted

/-- Number of bytes that the copy takes up at a new position. -/
def sizeAt (c : Copy) (position : Nat) : Nat := c.disposition.sizeAt c.instruction position

end Copy

namespace Verified

/-- The instructions that run with exactly the subroutines of a call active, with their indices. -/
def instructionsIn (v : Verified) (call : Call) : List (Instruction × Nat) :=
  let nesting := call.nesting
  v.body.toList.zipIdx.filter fun (_, index) => v.activeAt? index == some nesting

/-- What becomes of a `jsr`, given the copies of the body that follow it. -/
def jsrDisposition (v : Verified) (position target : Nat) (callee : Call) (body : List Copy) : Disposition :=
  if (v.jsrRets.get? position).isSome ∧ body.head?.map Copy.position = some target then .skip
  else .jsrGoto callee

/-- The copies of the code in a call, with the copies of subroutine bodies where they are called.  Calls
are followed for so many levels; deeper than the subroutines are nested there is no code. -/
def copiesIn (v : Verified) : (levels : Nat) → Call → List Copy
  | 0, _ => []
  | levels + 1, call =>
    (v.instructionsIn call).flatMap fun (i, index) =>
      match i.flow with
      | .jsr target =>
        let callee := call.child target i.position
        let body := copiesIn v levels callee
        ⟨index, i, call, v.jsrDisposition i.position target callee body⟩ :: body
      | .plain _ =>
        [⟨index, i, call, if v.returnStores.contains i.position then .skip else .keep⟩]
      | _ => [⟨index, i, call, .keep⟩]

/-- Greatest number of subroutines active at once. -/
def depth (v : Verified) : Nat :=
  v.active.foldl (fun depth nesting => max depth (nesting.elim 0 List.length)) 0

/-- All copies, in the order of the new code. -/
def copies (v : Verified) : List Copy := v.copiesIn (v.depth + 1) .root

end Verified

/-- All copies, found by number or by the position they come from. -/
structure Expansion where
  copies : Array Copy
  /-- Numbers of the copies of each position, in ascending order. -/
  places : PositionMap (List Nat)

namespace Expansion

def ofCopies (codeLength : Nat) (copies : List Copy) : Expansion where
  copies := copies.toArray
  places := copies.zipIdx.foldr
    (fun (c, number) places =>
      places.insert c.position (number :: (places.get? c.position).getD []))
    (.empty codeLength)

/-- The copies of a position. -/
def copiesOf (e : Expansion) (position : Nat) : List Nat := (e.places.get? position).getD []

/-- The copy of a position that code in a call can go to. -/
def resolve (e : Expansion) (position : Nat) (source : Call) : Except VerifyError Nat :=
  let reachable (number : Nat) : Bool := e.copies[number]?.any fun c => source.canGoto c.call
  match (e.copiesOf position).find? reachable with
  | some number => .ok number
  | none => .error (.nowhere (.missingDuplicate position))

/-- The copy that the copy of a `ret` goes on with: the code after the `jsr` of the outermost call that it
leaves, in the call that contains the `jsr`. -/
def returnTarget (e : Expansion) (v : Verified) (c : Copy) : Except VerifyError Nat :=
  let missing : VerifyError := .located c.position .missingContinuation
  match v.framesPopped.get? c.position with
  | none => .error missing
  | some popped =>
    let left? := c.call.ancestor? (popped - 1)
    match left?.bind Call.caller?, left?.bind Call.parent? with
    | some caller, some around =>
      match v.body.startingAt? caller with
      | none => .error missing
      | some jsr => e.resolve jsr.next around
    | _, _ => .error missing

/-- What becomes of the copy with a number, if it is a `ret`. -/
def bindReturn (e : Expansion) (v : Verified) (numbered : Copy × Nat) : Except VerifyError Copy :=
  let (c, number) := numbered
  match c.instruction.flow with
  | .ret _ => do
    let target ← e.returnTarget v c
    return { c with disposition := if target = number + 1 then .skip else .retGoto target }
  | _ => .ok c

/-- Find where every `ret` goes. -/
def bindReturns (e : Expansion) (v : Verified) : Except VerifyError Expansion := do
  let copies ← e.copies.toList.zipIdx.mapM (e.bindReturn v)
  return { e with copies := copies.toArray }

end Expansion

end Bytecode
