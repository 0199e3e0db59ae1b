import Bytecode.Proofs.Growth
import Mathlib.Data.Set.Basic

/-!
# Nestings that meet

Where paths meet, their nestings are merged one after the other: the shallower one stays, and of two that are equally deep
the part they share.  The shallower one need not be an outer part of the deeper one, so what stays need not enclose all
paths, and it can depend on which path comes first.

* `Nesting.mergeAll`: what nestings merge to that arrive one after the other, as the frames at a place do
  (`Session.nestingAt?_foldlM_mergeInto`);
* `Nesting.merge_outer_iff`: when two nestings merge to an outer part of both;
* `Nesting.mergeAll_perm`: if the order does not matter for three nestings out of a set, it does not matter for any number
  of them;
* `Nesting.mergeAll_outer`: if three nestings out of a set merge to an outer part of all three, so does any number.
-/

namespace Bytecode

namespace Nesting

variable {n o p : Nesting}

/-! ## Two nestings -/

/-- What is shared is the longest outer part of both. -/
theorem prefix_shared_iff : p <+: shared n o ↔ p <+: n ∧ p <+: o := by
  induction p generalizing n o with
  | nil => simp
  | cons a p ih =>
    cases n with
    | nil => simp [shared]
    | cons b n =>
      cases o with
      | nil => simp [shared]
      | cons c o =>
        by_cases hbc : b = c
        · subst hbc
          simp only [shared, if_true, List.cons_prefix_cons, ih]
          exact and_and_left
        · simp only [shared, if_neg hbc, List.cons_prefix_cons]
          constructor
          · intro h
            exact absurd (List.prefix_nil.mp h) (List.cons_ne_nil a p)
          · rintro ⟨⟨rfl, -⟩, rfl, -⟩
            exact absurd rfl hbc

theorem shared_self (n : Nesting) : shared n n = n := by
  have hfront : n <+: shared n n := prefix_shared_iff.mpr ⟨List.prefix_rfl, List.prefix_rfl⟩
  exact (shared_isFront n n).eq_of_length_le hfront.length_le

theorem merge_of_lt (h : n.length < o.length) : n.merge o = n := by
  unfold merge
  rw [if_neg (by omega), if_neg (by omega)]

theorem merge_of_gt (h : o.length < n.length) : n.merge o = o := by
  unfold merge
  rw [if_pos h]

theorem merge_of_eq (h : n.length = o.length) : n.merge o = shared n o := by
  unfold merge
  rw [if_neg (by omega), if_pos h.symm]

theorem merge_self (n : Nesting) : n.merge n = n := by
  rw [merge_of_eq rfl, shared_self]

theorem merge_comm (n o : Nesting) : n.merge o = o.merge n := by
  rcases Nat.lt_trichotomy n.length o.length with hlt | heq | hgt
  · rw [merge_of_lt hlt, merge_of_gt hlt]
  · rw [merge_of_eq heq, merge_of_eq heq.symm, shared_comm]
  · rw [merge_of_gt hgt, merge_of_lt hgt]

/-- Whatever encloses both nestings encloses what they merge to. -/
theorem prefix_merge (hn : p <+: n) (ho : p <+: o) : p <+: n.merge o := by
  rcases Nat.lt_trichotomy n.length o.length with hlt | heq | hgt
  · rw [merge_of_lt hlt]
    exact hn
  · rw [merge_of_eq heq]
    exact prefix_shared_iff.mpr ⟨hn, ho⟩
  · rw [merge_of_gt hgt]
    exact ho

/-- Two nestings merge to an outer part of both exactly if they are equally deep or one encloses the other. -/
theorem merge_outer_iff :
    (n.merge o <+: n ∧ n.merge o <+: o) ↔ n.length = o.length ∨ n <+: o ∨ o <+: n := by
  rcases Nat.lt_trichotomy n.length o.length with hlt | heq | hgt
  · rw [merge_of_lt hlt]
    constructor
    · rintro ⟨-, h⟩
      exact Or.inr (Or.inl h)
    · rintro (heq | h | h)
      · omega
      · exact ⟨List.prefix_rfl, h⟩
      · have hle := h.length_le
        omega
  · rw [merge_of_eq heq]
    exact iff_of_true (prefix_shared_iff.mp List.prefix_rfl) (Or.inl heq)
  · rw [merge_of_gt hgt]
    constructor
    · rintro ⟨h, -⟩
      exact Or.inr (Or.inr h)
    · rintro (heq | h | h)
      · omega
      · have hle := h.length_le
        omega
      · exact ⟨h, List.prefix_rfl⟩

/-! ## Nestings that arrive one after the other -/

/-- A nesting arrives where none or others did before. -/
def arrive : Option Nesting → Nesting → Option Nesting
  | none, n => some n
  | some c, n => some (c.merge n)

/-- What nestings merge to that arrive in this order. -/
def mergeAll (arrivals : List Nesting) : Option Nesting := arrivals.foldl arrive none

/-- Whatever encloses all arrivals encloses what they merge to, in whichever order they arrive. -/
theorem prefix_mergeAll {arrivals : List Nesting} {c : Nesting} (h : mergeAll arrivals = some c)
    (hp : ∀ n ∈ arrivals, p <+: n) : p <+: c := by
  have hfold : ∀ (later : List Nesting) (before : Option Nesting), (∀ n ∈ later, p <+: n) →
      (∀ b, before = some b → p <+: b) → later.foldl arrive before = some c → p <+: c := by
    intro later
    induction later with
    | nil =>
      intro before _ hbefore h
      exact hbefore c h
    | cons n later ih =>
      intro before hlater hbefore h
      refine ih (arrive before n) (fun o ho => hlater o (List.mem_cons_of_mem n ho)) ?_ h
      intro b hb
      have hn := hlater n (List.mem_cons_self ..)
      cases before with
      | none => exact Option.some.inj hb ▸ hn
      | some a => exact Option.some.inj hb ▸ prefix_merge (hbefore a rfl) hn
  exact hfold arrivals none hp (by simp) h

/-! ## Sets in which three nestings can be merged in any order -/

/-- For three nestings out of a set the order does not matter. -/
def Associates (S : Set Nesting) : Prop :=
  ∀ x ∈ S, ∀ y ∈ S, ∀ z ∈ S, (x.merge y).merge z = x.merge (y.merge z)

/-- What nestings out of a set merge to, if the order does not matter: one of them, or what two equally deep ones share
that differ. -/
def Reached (S : Set Nesting) (c : Nesting) : Prop :=
  c ∈ S ∨ ∃ x ∈ S, ∃ y ∈ S, x.length = y.length ∧ c.length < x.length ∧ c = shared x y

variable {S : Set Nesting} {a b c : Nesting}

/-- What two nestings share that differ stays, or gives way to a nesting that is not deeper. -/
theorem Associates.merge_shared {x y : Nesting} (hS : Associates S) (hx : x ∈ S) (hy : y ∈ S) (ha : a ∈ S)
    (hequal : x.length = y.length) (hless : (shared x y).length < x.length) :
    (shared x y).merge a = if a.length ≤ (shared x y).length then a else shared x y := by
  split
  · -- the order does not matter, and both `x` and `y` are deeper than `a`
    rename_i hle
    have hinner : y.merge a = a := merge_of_gt (by omega)
    calc (shared x y).merge a = (x.merge y).merge a := by rw [merge_of_eq hequal]
      _ = x.merge (y.merge a) := hS x hx y hy a ha
      _ = x.merge a := by rw [hinner]
      _ = a := merge_of_gt (by omega)
  · exact merge_of_lt (by omega)

theorem Reached.merge (hS : Associates S) (hc : Reached S c) (ha : a ∈ S) : Reached S (c.merge a) := by
  rcases hc with hmem | ⟨x, hx, y, hy, hequal, hless, rfl⟩
  · rcases Nat.lt_trichotomy c.length a.length with hlt | heq | hgt
    · rw [merge_of_lt hlt]
      exact Or.inl hmem
    · rw [merge_of_eq heq]
      rcases Nat.lt_or_eq_of_le (length_shared_le c a) with hlt | hsame
      · exact Or.inr ⟨c, hmem, a, ha, heq, hlt, rfl⟩
      · rw [shared_eq_of_length hsame]
        exact Or.inl hmem
    · rw [merge_of_gt hgt]
      exact Or.inl ha
  · rw [hS.merge_shared hx hy ha hequal hless]
    split
    · exact Or.inl ha
    · exact Or.inr ⟨x, hx, y, hy, hequal, hless, rfl⟩

/-- Two arrivals can be exchanged. -/
theorem Reached.merge_right_comm (hS : Associates S) (hc : Reached S c) (ha : a ∈ S) (hb : b ∈ S) :
    (c.merge a).merge b = (c.merge b).merge a := by
  rcases hc with hmem | ⟨x, hx, y, hy, hequal, hless, rfl⟩
  · calc (c.merge a).merge b = c.merge (a.merge b) := hS c hmem a ha b hb
      _ = c.merge (b.merge a) := by rw [merge_comm a b]
      _ = (c.merge b).merge a := (hS c hmem b hb a ha).symm
  · rw [hS.merge_shared hx hy ha hequal hless, hS.merge_shared hx hy hb hequal hless]
    by_cases hale : a.length ≤ (shared x y).length
    · by_cases hble : b.length ≤ (shared x y).length
      · rw [if_pos hale, if_pos hble, merge_comm]
      · rw [if_pos hale, if_neg hble, merge_of_lt (by omega), hS.merge_shared hx hy ha hequal hless, if_pos hale]
    · by_cases hble : b.length ≤ (shared x y).length
      · rw [if_neg hale, if_pos hble, hS.merge_shared hx hy hb hequal hless, if_pos hble, merge_of_lt (by omega)]
      · rw [if_neg hale, if_neg hble, merge_of_lt (by omega), merge_of_lt (by omega)]

/-- A place where nothing arrived, or what nestings out of a set merge to did. -/
def Awaits (S : Set Nesting) (before : Option Nesting) : Prop := ∀ c, before = some c → Reached S c

theorem Awaits.arrive {before : Option Nesting} (hS : Associates S) (h : Awaits S before) (ha : a ∈ S) :
    Awaits S (arrive before a) := by
  intro c hc
  cases before with
  | none => exact Option.some.inj hc ▸ Or.inl ha
  | some b => exact Option.some.inj hc ▸ (h b rfl).merge hS ha

/-- Nestings out of such a set can arrive in any order. -/
theorem mergeAll_perm {arrivals arrivals' : List Nesting} (hS : Associates S) (hmem : ∀ n ∈ arrivals, n ∈ S)
    (hperm : arrivals.Perm arrivals') : mergeAll arrivals = mergeAll arrivals' := by
  have hfold : ∀ before, Awaits S before → arrivals.foldl arrive before = arrivals'.foldl arrive before := by
    induction hperm with
    | nil => exact fun _ _ => rfl
    | cons n _ ih =>
      intro before hbefore
      exact ih (fun o ho => hmem o (List.mem_cons_of_mem n ho)) (arrive before n)
        (hbefore.arrive hS (hmem n (List.mem_cons_self ..)))
    | swap n o later =>
      intro before hbefore
      have ho : o ∈ S := hmem o (List.mem_cons_self ..)
      have hn : n ∈ S := hmem n (List.mem_cons_of_mem o (List.mem_cons_self ..))
      have hswap : arrive (arrive before o) n = arrive (arrive before n) o := by
        cases before with
        | none => exact congrArg some (merge_comm o n)
        | some c => exact congrArg some ((hbefore c rfl).merge_right_comm hS ho hn)
      rw [List.foldl_cons, List.foldl_cons, List.foldl_cons, List.foldl_cons, hswap]
    | trans hfirst _ ih ih' =>
      intro before hbefore
      exact (ih hmem before hbefore).trans (ih' (fun n hn => hmem n (hfirst.mem_iff.mpr hn)) before hbefore)
  exact hfold none (by simp [Awaits])

theorem associates_of_perm (h : ∀ arrivals arrivals' : List Nesting, (∀ n ∈ arrivals, n ∈ S) → arrivals.Perm arrivals' →
    mergeAll arrivals = mergeAll arrivals') : Associates S := by
  intro x hx y hy z hz
  have hperm : [x, y, z].Perm [y, z, x] := @List.perm_append_comm _ [x] [y, z]
  have hmem : ∀ n ∈ [x, y, z], n ∈ S := by simp [hx, hy, hz]
  calc (x.merge y).merge z = (y.merge z).merge x := Option.some.inj (h _ _ hmem hperm)
    _ = x.merge (y.merge z) := merge_comm _ _

/-! ## Sets in which three nestings merge to an outer part of all -/

/-- Three nestings out of a set merge to an outer part of all three. -/
def Coherent (S : Set Nesting) : Prop :=
  ∀ x ∈ S, ∀ y ∈ S, ∀ z ∈ S, ∀ n ∈ [x, y, z], (x.merge y).merge z <+: n

/-- The outer part of all three is the longest one, so the order does not matter. -/
theorem Coherent.associates (h : Coherent S) : Associates S := by
  intro x hx y hy z hz
  have hleft := h x hx y hy z hz
  have hright := h y hy z hz x hx
  simp only [List.mem_cons, List.not_mem_nil, or_false, forall_eq_or_imp, forall_eq] at hleft hright
  rw [merge_comm x (y.merge z)]
  have hle : (x.merge y).merge z <+: (y.merge z).merge x := prefix_merge (prefix_merge hleft.2.1 hleft.2.2) hleft.1
  have hge : (y.merge z).merge x <+: (x.merge y).merge z := prefix_merge (prefix_merge hright.2.2 hright.1) hright.2.1
  exact hle.eq_of_length_le hge.length_le

/-- What a nesting merges to that arrives encloses it, and encloses what was there. -/
theorem Coherent.merge (h : Coherent S) (hc : Reached S c) (ha : a ∈ S) : c.merge a <+: c ∧ c.merge a <+: a := by
  rcases hc with hmem | ⟨x, hx, y, hy, hequal, hless, rfl⟩
  · have hpair := h c hmem c hmem a ha
    rw [merge_self] at hpair
    exact ⟨hpair c (by simp), hpair a (by simp)⟩
  · have hthree := h x hx y hy a ha
    rw [merge_of_eq hequal] at hthree
    exact ⟨prefix_shared_iff.mpr ⟨hthree x (by simp), hthree y (by simp)⟩, hthree a (by simp)⟩

/-- Nestings out of such a set merge to an outer part of all of them, in whichever order they arrive. -/
theorem mergeAll_outer {arrivals : List Nesting} (hS : Coherent S) (hmem : ∀ n ∈ arrivals, n ∈ S)
    (h : mergeAll arrivals = some c) : ∀ n ∈ arrivals, c <+: n := by
  have hfold : ∀ (later : List Nesting) (before : Option Nesting), (∀ n ∈ later, n ∈ S) → Awaits S before →
      later.foldl arrive before = some c → (∀ b, before = some b → c <+: b) ∧ ∀ n ∈ later, c <+: n := by
    intro later
    induction later with
    | nil =>
      rintro before _ _ rfl
      exact ⟨fun b hb => Option.some.inj hb ▸ List.prefix_rfl, by simp⟩
    | cons n later ih =>
      intro before hlater hbefore h
      have hn := hlater n (List.mem_cons_self ..)
      obtain ⟨harrived, hrest⟩ := ih (arrive before n) (fun o ho => hlater o (List.mem_cons_of_mem n ho))
        (hbefore.arrive hS.associates hn) h
      -- the nesting that arrives is enclosed, and so is the one before it
      cases before with
      | none => exact ⟨by simp, List.forall_mem_cons.mpr ⟨harrived n rfl, hrest⟩⟩
      | some b =>
        obtain ⟨hb, hn'⟩ := hS.merge (hbefore b rfl) hn
        have hc := harrived (b.merge n) rfl
        exact ⟨fun b' hb' => Option.some.inj hb' ▸ hc.trans hb, List.forall_mem_cons.mpr ⟨hc.trans hn', hrest⟩⟩
  exact (hfold arrivals none hmem (by simp [Awaits]) h).2

theorem coherent_of_mergeAll (h : ∀ (arrivals : List Nesting) (c : Nesting), (∀ n ∈ arrivals, n ∈ S) →
    mergeAll arrivals = some c → ∀ n ∈ arrivals, c <+: n) : Coherent S := by
  intro x hx y hy z hz
  exact h [x, y, z] _ (by simp [hx, hy, hz]) rfl

end Nesting

/-! ## Frames that arrive at a place -/

namespace Session

variable {setup : Setup} {s t : Session} {position : Nat}

/-- The subroutines active in the state of a place. -/
def nestingAt? (s : Session) (position : Nat) : Option Nesting :=
  (s.states.get? position).map fun st => st.frame.nesting

theorem nestingAt?_mergeInto {frame : Frame} (h : s.mergeInto setup position frame = .ok t) :
    t.nestingAt? position = Nesting.arrive (s.nestingAt? position) frame.nesting := by
  unfold nestingAt?
  obtain ⟨u, rfl, hnone, hbound, rfl⟩ | ⟨st, merged, u, rfl, hsome, hmerge, hcases⟩ := mergeInto_eq_ok h
  · rw [states_enqueue, states_note, PositionMap.get?_insert_self _ hbound, hnone]
    rfl
  · rw [hsome, Option.map_some, Nesting.arrive, ← Frame.nesting_merge hmerge]
    rcases hcases with ⟨rfl, rfl⟩ | rfl
    · rw [hsome, Option.map_some]
    · rw [states_enqueue, states_note, PositionMap.get?_insert_self _ (PositionMap.lt_bound_of_get? hsome),
        Option.map_some]

/-- At a place without a state, the active subroutines are what those of the frames merge to that arrive there. -/
theorem nestingAt?_foldlM_mergeInto {frames : List Frame} (hnone : s.states.get? position = none)
    (h : frames.foldlM (fun s frame => s.mergeInto setup position frame) s = .ok t) :
    t.nestingAt? position = Nesting.mergeAll (frames.map Frame.nesting) := by
  have hfold : t.nestingAt? position = (frames.map Frame.nesting).foldl Nesting.arrive (s.nestingAt? position) := by
    clear hnone
    induction frames generalizing s with
    | nil =>
      obtain rfl := pure_eq_ok.mp h
      rfl
    | cons frame frames ih =>
      rw [List.foldlM_cons] at h
      obtain ⟨u, hu, hrest⟩ := bind_eq_ok.mp h
      rw [ih hrest, nestingAt?_mergeInto hu, List.map_cons, List.foldl_cons]
  rw [hfold, nestingAt?, hnone]
  rfl

end Session

namespace Nesting

/-- **Merging nestings.**  The order of two of them does not matter, and merging a nesting with itself changes nothing.  The
shallower one stays, or of equally deep ones the longest outer part of both.  So two nestings merge to an outer part of both
exactly if they are equally deep or one encloses the other.  Whatever encloses all nestings that arrive at a place encloses
what they merge to.  For nestings out of a set, the order of arrival never matters exactly if merging is associative on it,
and they always merge to an outer part of all exactly if three of them do.  The subroutines active in the state of a place
are what those of the arriving frames merge to. -/
theorem arrivals_merged (S : Set Nesting) :
    (∀ n o : Nesting, n.merge o = o.merge n) ∧ (∀ n : Nesting, n.merge n = n) ∧
    (∀ n o : Nesting, (n.length < o.length → n.merge o = n) ∧
      (n.length = o.length → ∀ p, p <+: n.merge o ↔ p <+: n ∧ p <+: o)) ∧
    (∀ n o : Nesting, (n.merge o <+: n ∧ n.merge o <+: o) ↔ n.length = o.length ∨ n <+: o ∨ o <+: n) ∧
    (∀ (arrivals : List Nesting) (c p : Nesting), mergeAll arrivals = some c → (∀ n ∈ arrivals, p <+: n) → p <+: c) ∧
    ((∀ arrivals arrivals' : List Nesting, (∀ n ∈ arrivals, n ∈ S) → arrivals.Perm arrivals' →
        mergeAll arrivals = mergeAll arrivals') ↔
      ∀ x ∈ S, ∀ y ∈ S, ∀ z ∈ S, (x.merge y).merge z = x.merge (y.merge z)) ∧
    ((∀ (arrivals : List Nesting) (c : Nesting), (∀ n ∈ arrivals, n ∈ S) → mergeAll arrivals = some c →
        ∀ n ∈ arrivals, c <+: n) ↔
      ∀ x ∈ S, ∀ y ∈ S, ∀ z ∈ S, ∀ n ∈ [x, y, z], (x.merge y).merge z <+: n) ∧
    ∀ (setup : Setup) (s t : Session) (position : Nat) (frames : List Frame), s.states.get? position = none →
      frames.foldlM (fun s frame => s.mergeInto setup position frame) s = .ok t →
      t.nestingAt? position = mergeAll (frames.map Frame.nesting) := by
  refine ⟨merge_comm, merge_self, ?_, fun n o => merge_outer_iff, fun arrivals c p => prefix_mergeAll, ?_, ?_, ?_⟩
  · intro n o
    refine ⟨merge_of_lt, ?_⟩
    intro hequal p
    rw [merge_of_eq hequal]
    exact prefix_shared_iff
  · exact ⟨associates_of_perm, fun hS arrivals arrivals' => mergeAll_perm hS⟩
  · exact ⟨coherent_of_mergeAll, fun hS arrivals c => mergeAll_outer hS⟩
  · intro setup s t position frames
    exact Session.nestingAt?_foldlM_mergeInto

/-- A nesting stays that is no outer part of the other one; and of three, the last to arrive stays or not. -/
theorem shallower_not_outer :
    ¬ (∀ n o : Nesting, n.merge o <+: n ∧ n.merge o <+: o) ∧
    ¬ (∀ arrivals arrivals' : List Nesting, arrivals.Perm arrivals' → mergeAll arrivals = mergeAll arrivals') ∧
    ¬ (∀ n o p : Nesting, (n.merge o).merge p = n.merge (o.merge p)) := by
  refine ⟨?_, ?_, ?_⟩
  · intro h
    have houter : Nesting.merge [13] [7, 13] <+: [7, 13] := (h [13] [7, 13]).2
    revert houter
    decide
  · intro h
    have hsame := h [[1, 2], [1, 3], [5]] [[1, 3], [5], [1, 2]]
      (@List.perm_append_comm _ [[1, 2]] [[1, 3], [5]])
    revert hsame
    decide
  · intro h
    have hsame := h [1, 2] [1, 3] [5]
    revert hsame
    decide

end Nesting

end Bytecode
