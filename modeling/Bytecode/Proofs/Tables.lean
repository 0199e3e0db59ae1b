import Bytecode.PositionMap
import Bytecode.Verification.Subroutine
import Mathlib.Data.List.Basic
import Mathlib.Data.List.Perm.Subperm

/-!
# What tables and registries hold after a change

Positions outside of a table are left out when it changes, so what a table holds depends on its bound.  The
registry of subroutines is a table keyed by entries, and what it holds only grows.
-/

namespace Bytecode

variable {p q entry : Nat} {f : Subroutine → Subroutine}

/-- There are only so many different positions in code of a length. -/
theorem length_le_of_nodup {length : Nat} {places : List Nat} (hnodup : places.Nodup) (hlt : ∀ p ∈ places, p < length) :
    places.length ≤ length := by
  have hsubset : places ⊆ List.range length := fun p hp => List.mem_range.mpr (hlt p hp)
  have hle := (hnodup.subperm hsubset).length_le
  rwa [List.length_range] at hle

namespace PositionMap

variable {α : Type}

theorem get?_insert (m : PositionMap α) (p q : Nat) (a : α) :
    (m.insert p a).get? q = if p = q ∧ q < m.bound then some a else m.get? q := by
  unfold get? slot? insert bound
  rw [Array.getElem?_setIfInBounds]
  by_cases hpq : p = q
  · subst hpq
    by_cases hlt : p < m.slots.size
    · simp [hlt]
    · simp [hlt]
  · simp [hpq]

theorem get?_insert_self {m : PositionMap α} (a : α) (hp : p < m.bound) : (m.insert p a).get? p = some a := by
  rw [get?_insert, if_pos ⟨rfl, hp⟩]

theorem get?_insert_ne (m : PositionMap α) (a : α) (hpq : p ≠ q) : (m.insert p a).get? q = m.get? q := by
  rw [get?_insert, if_neg fun h => hpq h.1]

/-- What holds of all that a table holds, and of what is put into it, holds of all that it holds then. -/
theorem forall_insert {m : PositionMap α} {a : α} {P : Nat → α → Prop}
    (hold : ∀ q b, m.get? q = some b → P q b) (hnew : P p a) : ∀ q b, (m.insert p a).get? q = some b → P q b := by
  intro q b hget
  rw [get?_insert] at hget
  split at hget
  · rename_i hq
    obtain rfl := Option.some.inj hget
    rw [← hq.1]
    exact hnew
  · exact hold q b hget

theorem lt_bound_of_slot? {m : PositionMap α} {slot : Option α} (h : m.slot? p = some slot) : p < m.bound :=
  (Array.getElem?_eq_some_iff.mp h).1

theorem lt_bound_of_get? {m : PositionMap α} {a : α} (h : m.get? p = some a) : p < m.bound := by
  unfold get? slot? at h
  by_contra hlarge
  rw [Array.getElem?_eq_none (Nat.le_of_not_lt hlarge)] at h
  simp at h

theorem get?_eq_some_iff {m : PositionMap α} {a : α} : m.get? p = some a ↔ m.slot? p = some (some a) := by
  unfold get?
  exact Option.join_eq_some_iff

@[simp] theorem get?_empty (bound position : Nat) : (empty bound : PositionMap α).get? position = none := by
  unfold get? slot? empty
  rw [Array.getElem?_replicate]
  split <;> rfl

@[simp] theorem bound_empty (bound : Nat) : (empty bound : PositionMap α).bound = bound := by
  unfold PositionMap.bound empty
  exact Array.size_replicate

theorem mem_toList {m : PositionMap α} {a : α} : (p, a) ∈ m.toList ↔ m.get? p = some a := by
  rw [get?_eq_some_iff]
  unfold toList slot?
  rw [List.mem_filterMap]
  constructor
  · rintro ⟨⟨slot, q⟩, hmem, hslot⟩
    obtain ⟨b, rfl, heq⟩ := Option.map_eq_some_iff.mp hslot
    obtain ⟨rfl, rfl⟩ := Prod.mk.inj heq
    rw [← Array.getElem?_toList]
    exact List.mem_zipIdx_iff_getElem?.mp hmem
  · intro h
    refine ⟨(some a, p), ?_, rfl⟩
    rw [← Array.getElem?_toList] at h
    exact List.mem_zipIdx_iff_getElem?.mpr h

end PositionMap

namespace PositionSet

theorem contains_insert_of_contains {s : PositionSet} (h : s.contains q = true) : (s.insert p).contains q = true := by
  rw [contains_insert, h, Bool.or_true]

theorem contains_insert_self {s : PositionSet} (hp : p < s.marks.size) : (s.insert p).contains p = true := by
  rw [contains_insert]
  simp [hp]

@[simp] theorem size_insert (s : PositionSet) (p : Nat) : (s.insert p).marks.size = s.marks.size := by
  unfold insert
  exact Array.size_setIfInBounds

@[simp] theorem contains_empty (bound p : Nat) : (empty bound).contains p = false := by
  unfold contains empty
  rw [Array.getElem?_replicate]
  split <;> rfl

@[simp] theorem size_empty (bound : Nat) : (empty bound).marks.size = bound := Array.size_replicate

@[simp] theorem size_insertAll (s : PositionSet) (positions : List Nat) :
    (s.insertAll positions).marks.size = s.marks.size := by
  unfold insertAll
  induction positions generalizing s with
  | nil => rfl
  | cons p rest ih => rw [List.foldl_cons, ih, size_insert]

end PositionSet

namespace Subroutine

theorem mem_addNew {positions : List Nat} : q ∈ addNew positions p ↔ q = p ∨ q ∈ positions := by
  unfold addNew
  split
  · rename_i hcontains
    constructor
    · exact Or.inr
    · rintro (rfl | hmem)
      · simpa using hcontains
      · exact hmem
  · rw [List.mem_append, List.mem_singleton]
    exact or_comm

theorem mem_addAscending {slots : List Nat} : q ∈ addAscending p slots ↔ q = p ∨ q ∈ slots := by
  induction slots with
  | nil => simp [addAscending]
  | cons other rest ih =>
    unfold addAscending
    split
    · simp
    · split
      · rename_i heq
        simp [heq]
      · rw [List.mem_cons, ih, List.mem_cons]
        constructor
        · rintro (h | h | h)
          · exact Or.inr (Or.inl h)
          · exact Or.inl h
          · exact Or.inr (Or.inr h)
        · rintro (h | h | h)
          · exact Or.inr (Or.inl h)
          · exact Or.inl h
          · exact Or.inr (Or.inr h)

/-- Everything known of a subroutine is still known. -/
structure Grows (s t : Subroutine) : Prop where
  entry : t.entry = s.entry
  retTargets : s.retTargets ⊆ t.retTargets
  retInstructions : s.retInstructions ⊆ t.retInstructions
  accessed : s.accessed ⊆ t.accessed

theorem Grows.refl (s : Subroutine) : s.Grows s := ⟨rfl, fun _ => id, fun _ => id, fun _ => id⟩

theorem Grows.trans {s t u : Subroutine} (h : s.Grows t) (k : t.Grows u) : s.Grows u :=
  ⟨k.entry.trans h.entry, List.Subset.trans h.retTargets k.retTargets,
    List.Subset.trans h.retInstructions k.retInstructions, List.Subset.trans h.accessed k.accessed⟩

theorem grows_addRetTarget (s : Subroutine) (p : Nat) : s.Grows (s.addRetTarget p) :=
  ⟨rfl, fun _ h => mem_addNew.mpr (Or.inr h), fun _ => id, fun _ => id⟩

theorem grows_addRetInstruction (s : Subroutine) (p : Nat) : s.Grows (s.addRetInstruction p) :=
  ⟨rfl, fun _ => id, fun _ h => mem_addNew.mpr (Or.inr h), fun _ => id⟩

theorem grows_access (s : Subroutine) (slot : Nat) : s.Grows (s.access slot) := by
  unfold access
  split
  · exact ⟨rfl, fun _ => id, fun _ => id, fun _ h => mem_addAscending.mpr (Or.inr h)⟩
  · exact .refl s

theorem grows_foldl_access (s : Subroutine) (slots : List Nat) : s.Grows (slots.foldl access s) := by
  induction slots generalizing s with
  | nil => exact .refl s
  | cons slot rest ih => exact (grows_access s slot).trans (ih (s.access slot))

end Subroutine

namespace Registry

/-- All subroutines are still known, with everything known of them. -/
def Grows (r t : Registry) : Prop :=
  ∀ entry sub, r.get? entry = some sub → ∃ sub', t.get? entry = some sub' ∧ sub.Grows sub'

theorem Grows.refl (r : Registry) : r.Grows r := fun _ sub h => ⟨sub, h, .refl sub⟩

theorem Grows.trans {r t u : Registry} (h : r.Grows t) (k : t.Grows u) : r.Grows u := by
  intro entry sub hsub
  obtain ⟨sub', hsub', hgrows⟩ := h entry sub hsub
  obtain ⟨sub'', hsub'', hgrows'⟩ := k entry sub' hsub'
  exact ⟨sub'', hsub'', hgrows.trans hgrows'⟩

/-- Changing subroutines one by one, without renaming them, changes what is found in the same way. -/
theorem find?_map {subroutines : List Subroutine} (hentry : ∀ s, (f s).entry = s.entry) (entry : Nat) :
    (subroutines.map f).find? (fun s => s.entry == entry)
      = (subroutines.find? fun s => s.entry == entry).map f := by
  induction subroutines with
  | nil => rfl
  | cons s rest ih =>
    rw [List.map_cons, List.find?_cons, List.find?_cons, hentry s]
    cases s.entry == entry with
    | true => rfl
    | false => exact ih

theorem get?_modify (r : Registry) (hentry : ∀ s, (f s).entry = s.entry) (other : Nat) :
    (r.modify entry f).get? other = (r.get? other).map fun s => if s.entry = entry then f s else s := by
  unfold modify get?
  apply find?_map
  intro s
  split
  · exact hentry s
  · rfl

theorem grows_modify (r : Registry) (hf : ∀ s : Subroutine, s.Grows (f s)) : r.Grows (r.modify entry f) := by
  intro other sub hsub
  rw [r.get?_modify (fun s => (hf s).entry), hsub]
  refine ⟨_, rfl, ?_⟩
  dsimp only
  split
  · exact hf sub
  · exact .refl sub

theorem get?_charge (r : Registry) (active slots : List Nat) (entry : Nat) :
    (r.charge active slots).get? entry
      = (r.get? entry).map fun s => if active.contains s.entry then slots.foldl Subroutine.access s else s := by
  unfold charge get?
  apply find?_map
  intro s
  split
  · exact (Subroutine.grows_foldl_access s slots).entry
  · rfl

theorem grows_charge (r : Registry) (active slots : List Nat) : r.Grows (r.charge active slots) := by
  intro entry sub hsub
  rw [get?_charge, hsub]
  refine ⟨_, rfl, ?_⟩
  dsimp only
  split
  · exact Subroutine.grows_foldl_access sub slots
  · exact .refl sub

theorem entry_of_get? {r : Registry} {sub : Subroutine} (h : r.get? entry = some sub) : sub.entry = entry := by
  unfold get? at h
  simpa using List.find?_some h

theorem get?_modify_self {r : Registry} {sub : Subroutine}
    (hentry : ∀ s, (f s).entry = s.entry) (hsub : r.get? entry = some sub) :
    (r.modify entry f).get? entry = some (f sub) := by
  rw [get?_modify r hentry, hsub, Option.map_some, if_pos (entry_of_get? hsub)]

theorem find?_insertOrdered (s : Subroutine) (subroutines : List Subroutine)
    (hnew : subroutines.find? (fun t => t.entry == s.entry) = none) :
    (insertOrdered s subroutines).find? (fun t => t.entry == entry)
      = if s.entry = entry then some s else subroutines.find? fun t => t.entry == entry := by
  induction subroutines with
  | nil =>
    rw [insertOrdered, List.find?_cons]
    by_cases hentry : s.entry = entry
    · simp [hentry]
    · rw [if_neg hentry, beq_false_of_ne hentry]
  | cons t rest ih =>
    rw [List.find?_cons] at hnew
    have hne : (t.entry == s.entry) = false := by
      cases h : t.entry == s.entry with
      | false => rfl
      | true => simp [h] at hnew
    rw [hne] at hnew
    unfold insertOrdered
    split
    · rw [List.find?_cons]
      by_cases hentry : s.entry = entry
      · simp [hentry]
      · rw [if_neg hentry, beq_false_of_ne hentry]
    · rw [List.find?_cons, List.find?_cons, ih hnew]
      by_cases hentry : s.entry = entry
      · rw [← hentry, hne]
      · simp only [if_neg hentry]

theorem get?_register (r : Registry) (entry other : Nat) :
    (r.register entry).get? other
      = if r.get? entry = none ∧ entry = other then some (.fresh entry r.maxLocals) else r.get? other := by
  unfold register
  cases hget : r.get? entry with
  | some sub => simp
  | none =>
    have hfind : r.subroutines.find? (fun t => t.entry == (Subroutine.fresh entry r.maxLocals).entry) = none := hget
    simp only [get?, find?_insertOrdered _ _ hfind]
    by_cases hentry : entry = other
    · simp [hentry, Subroutine.fresh]
    · simp [hentry, Subroutine.fresh]

theorem grows_register (r : Registry) (entry : Nat) : r.Grows (r.register entry) := by
  intro other sub hsub
  rw [get?_register, if_neg]
  · exact ⟨sub, hsub, .refl sub⟩
  · rintro ⟨hnone, rfl⟩
    rw [hnone] at hsub
    simp at hsub

theorem exists_get?_register (r : Registry) (entry : Nat) : ∃ sub, (r.register entry).get? entry = some sub := by
  rw [get?_register]
  cases hget : r.get? entry with
  | none => exact ⟨_, if_pos ⟨rfl, rfl⟩⟩
  | some sub => exact ⟨sub, if_neg fun h => by simp at h⟩

end Registry

end Bytecode
