import Bytecode.Verification.VerifyError
import Bytecode.Word

/-!
# Subroutines

A subroutine is known by its entry, the position that `jsr` instructions call.  The registry holds what is
learned of each: where it returns to, which instructions return from it, and which locals are read or
written while it is active.  Locals that a subroutine leaves alone keep, on return, the types they had at
the call.

`Nesting` is the list of subroutines active at a place, outermost first.
-/

namespace Bytecode

/-- What is learned of a subroutine. -/
structure Subroutine where
  entry : Nat
  /-- Positions after the calls, in the order found. -/
  retTargets : List Nat
  /-- Positions of the instructions that return from it, in the order found. -/
  retInstructions : List Nat
  /-- Number of locals of the method. -/
  maxLocals : Nat
  /-- Locals read or written while it is active, in ascending order. -/
  accessed : List Nat

namespace Subroutine

/-- A subroutine of which nothing is known, in a method with so many locals. -/
def fresh (entry maxLocals : Nat) : Subroutine := ⟨entry, [], [], maxLocals, []⟩

/-- Add a position to a list that does not have it. -/
def addNew (positions : List Nat) (position : Nat) : List Nat :=
  if positions.contains position then positions else positions ++ [position]

def addRetTarget (s : Subroutine) (position : Nat) : Subroutine :=
  { s with retTargets := addNew s.retTargets position }

def addRetInstruction (s : Subroutine) (position : Nat) : Subroutine :=
  { s with retInstructions := addNew s.retInstructions position }

/-- Put a number into an ascending list that does not have it. -/
def addAscending (slot : Nat) : List Nat → List Nat
  | [] => [slot]
  | other :: rest =>
    if slot < other then slot :: other :: rest
    else if slot = other then other :: rest
    else other :: addAscending slot rest

/-- Note an access of a local; what the method does not have is left out. -/
def access (s : Subroutine) (slot : Nat) : Subroutine :=
  if slot < s.maxLocals then { s with accessed := addAscending slot s.accessed } else s

def isAccessed (s : Subroutine) (index : Nat) : Bool := s.accessed.contains index

/-- Positions between brackets. -/
def positionList (positions : List Nat) : String :=
  "[" ++ ", ".intercalate (positions.map toString) ++ "]"

/-- All that is known of a subroutine, for listings. -/
def listing (s : Subroutine) : String :=
  let rets := positionList s.retInstructions
  let targets := positionList s.retTargets
  let accessed := positionList s.accessed
  s!"Subroutine \x7b entry: {s.entry}, ret_instructions: {rets}, ret_targets: {targets}, accessed: {accessed} \x7d"

end Subroutine

/-- The subroutines of a method, in order of their entries. -/
structure Registry where
  maxLocals : Nat
  subroutines : List Subroutine

namespace Registry

def empty (maxLocals : Nat) : Registry := ⟨maxLocals, []⟩

def size (r : Registry) : Nat := r.subroutines.length

def isEmpty (r : Registry) : Bool := r.subroutines.isEmpty

/-- The subroutine with an entry. -/
def get? (r : Registry) (entry : Nat) : Option Subroutine :=
  r.subroutines.find? fun s => s.entry == entry

/-- Put a new subroutine at its place in the order. -/
def insertOrdered (s : Subroutine) : List Subroutine → List Subroutine
  | [] => [s]
  | t :: rest => if s.entry < t.entry then s :: t :: rest else t :: insertOrdered s rest

/-- Register a subroutine unless it is known. -/
def register (r : Registry) (entry : Nat) : Registry :=
  match r.get? entry with
  | some _ => r
  | none => { r with subroutines := insertOrdered (.fresh entry r.maxLocals) r.subroutines }

/-- Change what is known of the subroutine with an entry. -/
def modify (r : Registry) (entry : Nat) (f : Subroutine → Subroutine) : Registry :=
  { r with subroutines := r.subroutines.map fun s => if s.entry = entry then f s else s }

/-- Note for all active subroutines that they access locals. -/
def charge (r : Registry) (active : List Nat) (slots : List Nat) : Registry :=
  { r with subroutines := r.subroutines.map fun s =>
      if active.contains s.entry then slots.foldl Subroutine.access s else s }

/-- Note for all active subroutines that they access so many locals from one on.  Counting stops where the
locals do; past the greatest word there is nothing left to count. -/
def chargeFrom (r : Registry) (active : List Nat) (first count : Nat) : Registry :=
  r.charge active (List.range' first (min (Word.wrap (first + count)) r.maxLocals - first))

end Registry

/-- The subroutines active at a place, outermost first. -/
abbrev Nesting := List Nat

namespace Nesting

/-- Enter a subroutine, which must not be active. -/
def enter (n : Nesting) (entry : Nat) : Except VerifyFault Nesting :=
  if n.contains entry then .error .recursiveSubroutine else .ok (n ++ [entry])

/-- Leave subroutines up to and with the one with an entry; gives how many are left.  A return can leave
an outer subroutine from inside of inner ones. -/
def leaveThrough (n : Nesting) (entry : Nat) : Except VerifyFault (Nat × Nesting) :=
  if n.isEmpty then .error .retOutsideSubroutine
  else
    match n.reverse.idxOf? entry with
    | some inner => .ok (inner + 1, n.take (n.length - (inner + 1)))
    | none => .error .illegalReturn

/-- The outermost subroutines that two nestings share. -/
def shared : Nesting → Nesting → Nesting
  | a :: n, b :: o => if a = b then a :: shared n o else []
  | _, _ => []

/-- Merge the nesting of another path: the shallower one stays, and of two equally deep ones the part they
share. -/
def merge (n other : Nesting) : Nesting :=
  if other.length < n.length then other
  else if other.length = n.length then shared n other
  else n

def render (n : Nesting) : String := Subroutine.positionList n

theorem length_shared_le (n o : Nesting) : (shared n o).length ≤ n.length := by
  induction n generalizing o with
  | nil => cases o <;> simp [shared]
  | cons a n ih =>
    cases o with
    | nil => simp [shared]
    | cons b o =>
      by_cases h : a = b
      · simp [shared, h, ih]
      · simp [shared, h]

theorem shared_eq_of_length {n o : Nesting} (h : (shared n o).length = n.length) : shared n o = n := by
  induction n generalizing o with
  | nil => cases o <;> rfl
  | cons a n ih =>
    cases o with
    | nil => simp [shared] at h
    | cons b o =>
      by_cases hab : a = b
      · simp only [shared, hab, if_true, List.length_cons, Nat.add_right_cancel_iff] at h ⊢
        rw [ih h]
      · simp [shared, hab] at h

/-- Merging makes a nesting shallower whenever it changes it. -/
theorem length_merge (n other : Nesting) :
    (n.merge other).length < n.length ∨ n.merge other = n := by
  unfold merge
  split
  · rename_i h
    exact Or.inl h
  · split
    · rcases Nat.lt_or_eq_of_le (length_shared_le n other) with h | h
      · exact Or.inl h
      · exact Or.inr (shared_eq_of_length h)
    · exact Or.inr rfl

end Nesting

end Bytecode
