import Bytecode.Proofs.Outcomes
import Bytecode.Verification.Frame
import Mathlib.Order.Lattice

/-!
# The order of types and of frames

A type is below another if it says more about a value.  Types form a join-semilattice with `VType.join`, and
frames are compared slot by slot.

* `VType.le_iff_join_eq`: the order is the one that joining determines;
* `Frame.Below`: a frame says at least as much as another.  Of the active subroutines the other frame has the
  same or fewer, and not necessarily the outermost ones;
* `Frame.merge_above`: merging gives a frame above both frames that meet.
-/

namespace Bytecode

namespace VType

/-- A type that says at least as much as another. -/
inductive Le : VType → VType → Prop
  | refl (a : VType) : Le a a
  | top (a : VType) : Le a .top
  | null (type : RefType) : Le .null (.object type)
  | object (type : RefType) : Le (.object type) (ofClass .object)

theorem Le.trans {a b c : VType} (h : Le a b) (k : Le b c) : Le a c := by
  cases h with
  | refl => exact k
  | top =>
    cases k with
    | refl => exact .top a
    | top => exact .top a
  | null type =>
    cases k with
    | refl => exact .null type
    | top => exact .top _
    | object => exact .null _
  | object type =>
    cases k with
    | refl => exact .object type
    | top => exact .top _
    | object => exact .object type

theorem Le.antisymm {a b : VType} (h : Le a b) (k : Le b a) : a = b := by
  cases h with
  | refl => rfl
  | top =>
    cases k with
    | refl => rfl
    | top => rfl
  | null type => nomatch k
  | object type =>
    cases k with
    | refl => rfl
    | object => rfl

theorem le_join_left (a b : VType) : Le a (a.join b) := by
  unfold join
  split
  · exact .refl a
  · split
    · exact .null _
    · exact .refl _
    · exact .object _
    · exact .top a

theorem join_comm (a b : VType) : a.join b = b.join a := by
  unfold join
  by_cases hab : a = b
  · rw [if_pos hab, if_pos hab.symm, hab]
  · rw [if_neg hab, if_neg (Ne.symm hab)]
    cases a <;> cases b <;> rfl

theorem join_le {a b c : VType} (h : Le a c) (k : Le b c) : Le (a.join b) c := by
  by_cases hab : a = b
  · rw [hab, join_self]
    exact k
  · unfold join
    rw [if_neg hab]
    -- the types meet in an object type, or the bound is `top`
    cases h with
    | top => exact .top _
    | refl =>
      cases k with
      | refl => exact absurd rfl hab
      | top => exact .top _
      | null type => exact .refl _
      | object type => exact .refl _
    | null type =>
      cases k with
      | refl => exact .refl _
      | null => exact absurd rfl hab
      | object => exact .object _
    | object type =>
      cases k with
      | refl => exact .refl _
      | null => exact .object _
      | object => exact .refl _

instance : SemilatticeSup VType where
  le := Le
  le_refl := Le.refl
  le_trans _ _ _ := Le.trans
  le_antisymm _ _ := Le.antisymm
  sup := join
  le_sup_left := le_join_left
  le_sup_right a b := by
    rw [join_comm]
    exact le_join_left b a
  sup_le _ _ _ := join_le

theorem le_iff_join_eq {a b : VType} : a ≤ b ↔ a.join b = b := sup_eq_right.symm

theorem le_top (a : VType) : a ≤ .top := Le.top a

theorem eq_top_of_top_le {a : VType} (h : .top ≤ a) : a = .top := le_antisymm (le_top a) h

/-- Types that do not stand for objects are below themselves and `top` only. -/
theorem eq_or_eq_top {a b : VType} (h : a ≤ b) (hinitialized : a.isInitialized = false) : b = a ∨ b = .top := by
  cases h with
  | refl => exact Or.inl rfl
  | top => exact Or.inr rfl
  | null => simp [isInitialized] at hinitialized
  | object => simp [isInitialized] at hinitialized

theorem isInitialized_of_le {a b : VType} (h : a ≤ b) (hb : b.isInitialized = true) : a.isInitialized = true := by
  cases h with
  | refl => exact hb
  | top => simp [isInitialized] at hb
  | null => rfl
  | object => rfl

/-- Declared types that are not references are those of numbers. -/
theorem exists_ofNumeric (base : BaseType) : ∃ n, ofField (.base base) = .ofNumeric n := by
  cases base with
  | float => exact ⟨.float, rfl⟩
  | long => exact ⟨.long, rfl⟩
  | double => exact ⟨.double, rfl⟩
  | _ => exact ⟨.int, rfl⟩

theorem eq_of_le_ofNumeric {a : VType} {n : NumericType} (h : a ≤ .ofNumeric n) : a = .ofNumeric n := by
  generalize hb : VType.ofNumeric n = b at h
  cases h with
  | refl => rfl
  | top => cases n <;> simp [ofNumeric] at hb
  | null => cases n <;> simp [ofNumeric] at hb
  | object => cases n <;> simp [ofNumeric, ofClass] at hb

theorem eq_of_le_of_isUninitialized {a b : VType} (h : a ≤ b) (hb : b.isUninitialized = true) : a = b := by
  cases h with
  | refl => rfl
  | top => simp [isUninitialized] at hb
  | null => simp [isUninitialized] at hb
  | object => simp [isUninitialized, ofClass] at hb

/-- Types of numbers, `null` and objects whose constructor has run. -/
def IsProper (t : VType) : Prop := t.isInitialized = true ∨ ∃ n, t = .ofNumeric n

theorem isProper_ofField (type : FieldType) : (ofField type).IsProper := by
  cases type with
  | base base => exact Or.inr (exists_ofNumeric base)
  | ref type => exact Or.inl rfl

/-- A type that says at least as much as another of values of the same width, as on the operand stack. -/
def Refines (a b : VType) : Prop := a ≤ b ∧ width a = width b

theorem Refines.refl (a : VType) : a.Refines a := ⟨le_refl a, rfl⟩

theorem Refines.trans {a b c : VType} (h : a.Refines b) (k : b.Refines c) : a.Refines c :=
  ⟨le_trans h.1 k.1, h.2.trans k.2⟩

/-- Only below `top` there are types of another width. -/
theorem refines_of_le {a b : VType} (h : a ≤ b) (hb : b ≠ .top) : a.Refines b := by
  refine ⟨h, ?_⟩
  cases h with
  | refl => rfl
  | top => exact absurd rfl hb
  | null => rfl
  | object => rfl

end VType

namespace Nesting

/-- The subroutines of `n`, or fewer. -/
def Within (n outer : Nesting) : Prop := outer = n ∨ outer.length < n.length

theorem Within.refl (n : Nesting) : n.Within n := Or.inl rfl

theorem Within.trans {n o p : Nesting} (h : n.Within o) (k : o.Within p) : n.Within p := by
  rcases h with rfl | h
  · exact k
  · rcases k with rfl | k
    · exact Or.inr h
    · exact Or.inr (by omega)

theorem shared_comm (n o : Nesting) : shared n o = shared o n := by
  induction n generalizing o with
  | nil => cases o <;> rfl
  | cons a n ih =>
    cases o with
    | nil => rfl
    | cons b o =>
      by_cases hab : a = b
      · simp only [shared, hab, if_true, ih o]
      · simp only [shared, if_neg hab, if_neg (Ne.symm hab)]

theorem merge_within_left (n other : Nesting) : n.Within (n.merge other) := by
  rcases n.length_merge other with hlt | heq
  · exact Or.inr hlt
  · exact Or.inl heq

theorem merge_within_right (n other : Nesting) : other.Within (n.merge other) := by
  unfold merge
  split
  · exact Or.inl rfl
  · rename_i hlong
    split
    · rename_i hequal
      rw [shared_comm]
      rcases Nat.lt_or_eq_of_le (length_shared_le other n) with hlt | heq
      · exact Or.inr hlt
      · exact Or.inl (shared_eq_of_length heq)
    · exact Or.inr (by omega)

theorem shared_isFront (n o : Nesting) : shared n o <+: n := by
  induction n generalizing o with
  | nil => cases o <;> exact List.nil_prefix
  | cons a n ih =>
    cases o with
    | nil => exact List.nil_prefix
    | cons b o =>
      by_cases hab : a = b
      · simp only [shared, hab, if_true]
        exact List.cons_prefix_cons.mpr ⟨rfl, ih o⟩
      · simp only [shared, if_neg hab]
        exact List.nil_prefix

theorem nodup_merge {n other : Nesting} (hn : n.Nodup) (hother : other.Nodup) : (n.merge other).Nodup := by
  unfold merge
  split
  · exact hother
  · split
    · exact hn.sublist (shared_isFront n other).sublist
    · exact hn

/-- Leaving through a subroutine leaves at least that one, which is active. -/
theorem leaveThrough_eq_ok {n rest : Nesting} {entry popped : Nat} (h : n.leaveThrough entry = .ok (popped, rest)) :
    0 < popped ∧ popped ≤ n.length ∧ n[n.length - popped]? = some entry := by
  unfold leaveThrough at h
  split at h
  · simp at h
  · split at h
    · rename_i inner hinner
      obtain ⟨rfl, -⟩ := Prod.mk.inj (Except.ok.inj h)
      obtain ⟨hlt, hentry, -⟩ := List.idxOf?_eq_some_iff.mp hinner
      rw [List.length_reverse] at hlt
      refine ⟨Nat.succ_pos _, hlt, ?_⟩
      rw [List.getElem_reverse] at hentry
      rw [List.getElem?_eq_getElem (by omega), ← hentry]
      congr 2
      omega
    · simp at h

end Nesting

namespace Frame

/-! ## Lists of types -/

theorem forall₂_le_refl (ts : List VType) : List.Forall₂ (· ≤ ·) ts ts :=
  List.forall₂_same.mpr fun t _ => le_refl t

theorem forall₂_trans {R : VType → VType → Prop} {ts us vs : List VType} (h : List.Forall₂ R ts us)
    (k : List.Forall₂ R us vs) (hR : ∀ a b c, R a b → R b c → R a c) : List.Forall₂ R ts vs := by
  induction h generalizing vs with
  | nil => exact k
  | cons hab h ih =>
    cases k with
    | cons hbc k => exact .cons (hR _ _ _ hab hbc) (ih k)

theorem forall₂_le_trans {ts us vs : List VType} (h : List.Forall₂ (· ≤ ·) ts us)
    (k : List.Forall₂ (· ≤ ·) us vs) : List.Forall₂ (· ≤ ·) ts vs :=
  forall₂_trans h k fun _ _ _ => le_trans

theorem joinLocals_above {ts us : List VType} (hlength : ts.length = us.length) :
    List.Forall₂ (· ≤ ·) ts (joinLocals ts us) ∧ List.Forall₂ (· ≤ ·) us (joinLocals ts us) := by
  induction ts generalizing us with
  | nil =>
    obtain rfl : us = [] := List.length_eq_zero_iff.mp hlength.symm
    exact ⟨.nil, .nil⟩
  | cons t ts ih =>
    cases us with
    | nil => simp at hlength
    | cons u us =>
      obtain ⟨hleft, hright⟩ := ih (by simpa using hlength)
      exact ⟨.cons le_sup_left hleft, .cons le_sup_right hright⟩

theorem le_normalized (ts : List VType) : List.Forall₂ (· ≤ ·) ts (normalized ts) := by
  induction ts with
  | nil => exact .nil
  | cons t ts ih =>
    refine .cons ?_ ih
    split
    · exact VType.le_top t
    · exact le_refl t

theorem joinStacks_above {ts us joined : List VType} (h : joinStacks ts us = .ok joined)
    (hlength : ts.length = us.length) :
    List.Forall₂ VType.Refines ts joined ∧ List.Forall₂ VType.Refines us joined := by
  induction ts generalizing us joined with
  | nil =>
    obtain rfl : us = [] := List.length_eq_zero_iff.mp hlength.symm
    obtain rfl := Except.ok.inj h
    exact ⟨.nil, .nil⟩
  | cons t ts ih =>
    cases us with
    | nil => simp at hlength
    | cons u us =>
      unfold joinStacks at h
      obtain ⟨rest, hrest, h⟩ := bind_eq_ok.mp h
      obtain ⟨hleft, hright⟩ := ih hrest (by simpa using hlength)
      by_cases htop : t.join u = .top
      · simp [htop, bind, Except.bind, throw, throwThe, MonadExceptOf.throw] at h
      · simp only [if_neg htop] at h
        obtain rfl := pure_eq_ok.mp h
        exact ⟨.cons (VType.refines_of_le le_sup_left htop) hleft, .cons (VType.refines_of_le le_sup_right htop) hright⟩

theorem joinStacks_ne_top {ts us joined : List VType} (h : joinStacks ts us = .ok joined) : ∀ t ∈ joined, t ≠ .top := by
  induction ts generalizing us joined with
  | nil =>
    obtain rfl := Except.ok.inj h
    simp
  | cons t ts ih =>
    cases us with
    | nil =>
      obtain rfl := Except.ok.inj h
      simp
    | cons u us =>
      unfold joinStacks at h
      obtain ⟨rest, hrest, h⟩ := bind_eq_ok.mp h
      by_cases htop : t.join u = .top
      · simp [htop, bind, Except.bind, throw, throwThe, MonadExceptOf.throw] at h
      · simp only [if_neg htop] at h
        obtain rfl := pure_eq_ok.mp h
        intro v hv
        rcases List.mem_cons.mp hv with rfl | hmem
        · exact htop
        · exact ih hrest v hmem

/-! ## Frames -/

/-- The locals of a frame say at least as much as those of another. -/
structure LocallyBelow (f g : Frame) : Prop where
  locals : List.Forall₂ (· ≤ ·) f.locals g.locals
  nesting : f.nesting.Within g.nesting

/-- A frame says at least as much as another. -/
structure Below (f g : Frame) : Prop extends LocallyBelow f g where
  stack : List.Forall₂ VType.Refines f.stack g.stack

theorem LocallyBelow.refl (f : Frame) : f.LocallyBelow f := ⟨forall₂_le_refl _, .refl _⟩

theorem LocallyBelow.trans {f g h : Frame} (hfg : f.LocallyBelow g) (hgh : g.LocallyBelow h) :
    f.LocallyBelow h :=
  ⟨forall₂_le_trans hfg.locals hgh.locals, hfg.nesting.trans hgh.nesting⟩

theorem Below.refl (f : Frame) : f.Below f := ⟨.refl f, List.forall₂_same.mpr fun t _ => .refl t⟩

theorem Below.trans {f g h : Frame} (hfg : f.Below g) (hgh : g.Below h) : f.Below h :=
  ⟨hfg.toLocallyBelow.trans hgh.toLocallyBelow, forall₂_trans hfg.stack hgh.stack fun _ _ _ => .trans⟩

/-- Frames with one stack are in order as their locals are. -/
theorem LocallyBelow.withStack {f g : Frame} (h : f.LocallyBelow g) (stack : List VType) :
    Below ⟨f.locals, stack, f.nesting⟩ ⟨g.locals, stack, g.nesting⟩ :=
  ⟨⟨h.locals, h.nesting⟩, List.forall₂_same.mpr fun t _ => .refl t⟩

theorem absorb_above {f other : Frame} (hlength : f.locals.length = other.locals.length) :
    f.LocallyBelow (f.absorb other) ∧ other.LocallyBelow (f.absorb other) := by
  obtain ⟨hleft, hright⟩ := joinLocals_above hlength
  have hnormal := le_normalized (joinLocals f.locals other.locals)
  exact ⟨⟨forall₂_le_trans hleft hnormal, Nesting.merge_within_left _ _⟩,
    ⟨forall₂_le_trans hright hnormal, Nesting.merge_within_right _ _⟩⟩

/-- What two frames merge to is above both. -/
theorem merge_above {f incoming merged : Frame} (h : f.merge incoming = .ok merged)
    (hlength : f.locals.length = incoming.locals.length) : f.Below merged ∧ incoming.Below merged := by
  unfold merge at h
  split at h
  · simp at h
  · rename_i hshape
    push Not at hshape
    split at h
    · simp at h
    · rename_i stack hstack
      obtain rfl := Except.ok.inj h
      obtain ⟨hleft, hright⟩ := absorb_above hlength
      obtain ⟨hbelow, hbelow'⟩ := joinStacks_above hstack hshape.1
      exact ⟨⟨⟨hleft.locals, hleft.nesting⟩, hbelow⟩, ⟨⟨hright.locals, hright.nesting⟩, hbelow'⟩⟩

end Frame

end Bytecode
