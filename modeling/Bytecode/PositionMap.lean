/-!
# Maps and sets keyed by code positions

The analysis of a method keeps several tables keyed by a position of its code.  A `PositionMap` has one
slot for every position below a bound fixed at the start, so that "no entry yet" and "not a position of
this code" are told apart by `slot?`.  Reading the entries back gives them in order of position.
-/

namespace Bytecode

/-- A table with at most one entry for every position below `bound`. -/
structure PositionMap (α : Type) where
  slots : Array (Option α)

namespace PositionMap

variable {α : Type}

/-- The table with no entry. -/
def empty (bound : Nat) : PositionMap α := ⟨Array.replicate bound none⟩

instance : Inhabited (PositionMap α) := ⟨empty 0⟩

/-- Number of positions the table covers. -/
def bound (m : PositionMap α) : Nat := m.slots.size

/-- The slot of a position: `none` outside of the table, `some none` when it is vacant. -/
def slot? (m : PositionMap α) (position : Nat) : Option (Option α) := m.slots[position]?

/-- Entry at a position. -/
def get? (m : PositionMap α) (position : Nat) : Option α := (m.slot? position).join

def contains (m : PositionMap α) (position : Nat) : Bool := (m.get? position).isSome

/-- Set the entry of a position; positions outside of the table are left out. -/
def insert (m : PositionMap α) (position : Nat) (a : α) : PositionMap α :=
  ⟨m.slots.setIfInBounds position (some a)⟩

/-- The entries in order of position. -/
def toList (m : PositionMap α) : List (Nat × α) :=
  m.slots.toList.zipIdx.filterMap fun (slot, position) => slot.map fun a => (position, a)

/-- Number of entries. -/
def size (m : PositionMap α) : Nat := m.slots.countP Option.isSome

/-- Number of positions without an entry. -/
def vacancies (m : PositionMap α) : Nat := m.slots.toList.countP Option.isNone

/-- Sum of a weight over all entries. -/
def total (weight : α → Nat) (m : PositionMap α) : Nat :=
  m.slots.toList.foldr (fun slot sum => slot.elim 0 weight + sum) 0

@[simp] theorem bound_insert (m : PositionMap α) (position : Nat) (a : α) :
    (m.insert position a).bound = m.bound := by
  simp [bound, insert]

/-- Setting one element of a list exchanges its contribution to a sum. -/
theorem foldr_set (f : Option α → Nat) (l : List (Option α)) (i : Nat) (x y : Option α) (h : l[i]? = some x) :
    (l.set i y).foldr (fun z sum => f z + sum) 0 + f x = l.foldr (fun z sum => f z + sum) 0 + f y := by
  induction l generalizing i with
  | nil => simp at h
  | cons z l ih =>
    cases i with
    | zero =>
      simp only [List.getElem?_cons_zero, Option.some.injEq] at h
      subst h
      simp only [List.set_cons_zero, List.foldr_cons]
      omega
    | succ i =>
      have := ih i (by simpa using h)
      simp only [List.set_cons_succ, List.foldr_cons]
      omega

theorem vacancies_eq_foldr (m : PositionMap α) :
    m.vacancies = m.slots.toList.foldr (fun slot sum => slot.elim 1 (fun _ => 0) + sum) 0 := by
  unfold vacancies
  induction m.slots.toList with
  | nil => rfl
  | cons slot l ih =>
    cases slot <;> simp [ih, Nat.add_comm]

/-- Filling a vacant slot leaves one vacancy less. -/
theorem vacancies_insert_vacant {m : PositionMap α} {position : Nat} (a : α)
    (h : m.slot? position = some none) : (m.insert position a).vacancies + 1 = m.vacancies := by
  have := foldr_set (fun slot => slot.elim 1 fun _ => 0) m.slots.toList position none (some a)
    (by simpa [slot?] using h)
  simp only [vacancies_eq_foldr, insert, Array.toList_setIfInBounds]
  simpa using this

/-- Replacing an entry keeps the vacancies. -/
theorem vacancies_insert_occupied {m : PositionMap α} {position : Nat} {b : α} (a : α)
    (h : m.slot? position = some (some b)) : (m.insert position a).vacancies = m.vacancies := by
  have := foldr_set (fun slot => slot.elim 1 fun _ => 0) m.slots.toList position (some b) (some a)
    (by simpa [slot?] using h)
  simp only [vacancies_eq_foldr, insert, Array.toList_setIfInBounds]
  simpa using this

/-- Replacing an entry exchanges its weight in the total. -/
theorem total_insert_occupied {m : PositionMap α} {position : Nat} {b : α} (weight : α → Nat) (a : α)
    (h : m.slot? position = some (some b)) :
    (m.insert position a).total weight + weight b = m.total weight + weight a := by
  have := foldr_set (fun slot => slot.elim 0 weight) m.slots.toList position (some b) (some a)
    (by simpa [slot?] using h)
  simp only [total, insert, Array.toList_setIfInBounds]
  simpa using this

end PositionMap

/-- A set of positions below a bound fixed at the start. -/
structure PositionSet where
  marks : Array Bool

namespace PositionSet

/-- The set with no position. -/
def empty (bound : Nat) : PositionSet := ⟨Array.replicate bound false⟩

instance : Inhabited PositionSet := ⟨empty 0⟩

def contains (s : PositionSet) (position : Nat) : Bool := s.marks[position]?.getD false

/-- Add a position; positions past the bound are left out. -/
def insert (s : PositionSet) (position : Nat) : PositionSet :=
  ⟨s.marks.setIfInBounds position true⟩

def insertAll (s : PositionSet) (positions : List Nat) : PositionSet := positions.foldl insert s

/-- The positions in ascending order. -/
def toList (s : PositionSet) : List Nat :=
  s.marks.toList.zipIdx.filterMap fun (mark, position) => if mark then some position else none

/-- Number of positions in the set. -/
def size (s : PositionSet) : Nat := s.marks.countP id

theorem contains_insert (s : PositionSet) (p q : Nat) :
    (s.insert p).contains q = ((p = q ∧ p < s.marks.size) || s.contains q) := by
  unfold contains insert
  simp only [Array.getElem?_setIfInBounds]
  by_cases hpq : p = q
  · subst hpq
    by_cases hlt : p < s.marks.size <;> simp [hlt]
  · simp [hpq]

/-- After adding several positions, the set has those below its bound and the ones it had. -/
theorem contains_insertAll_iff (s : PositionSet) (positions : List Nat) (q : Nat) :
    (s.insertAll positions).contains q = true
      ↔ s.contains q = true ∨ (q ∈ positions ∧ q < s.marks.size) := by
  induction positions generalizing s with
  | nil => simp [insertAll]
  | cons p rest ih =>
    have hsize : (s.insert p).marks.size = s.marks.size := by simp [insert]
    have hstep := ih (s.insert p)
    rw [insertAll, List.foldl_cons] at *
    rw [hstep, contains_insert, hsize]
    simp only [Bool.or_eq_true, decide_eq_true_eq, List.mem_cons]
    constructor
    · rintro ((⟨rfl, hlt⟩ | h) | ⟨hmem, hlt⟩)
      · exact Or.inr ⟨Or.inl rfl, hlt⟩
      · exact Or.inl h
      · exact Or.inr ⟨Or.inr hmem, hlt⟩
    · rintro (h | ⟨rfl | hmem, hlt⟩)
      · exact Or.inl (Or.inr h)
      · exact Or.inl (Or.inl ⟨rfl, hlt⟩)
      · exact Or.inr ⟨hmem, hlt⟩

end PositionSet

end Bytecode
