import Bytecode.Proofs.NewObjects
import Bytecode.Proofs.ReturnBindings

/-!
# Objects told apart

A type can only say at which `new` an object was made, and a loop makes many objects there.  Here the objects that are
made along a path through the code are numbered, and the code is run with types that hold the number of an object in
place of the position of its `new`.  Both ways of naming objects agree: along every path, an object that is known by a
position is the newest one from there.  So a constructor that initializes all copies of an object never initializes one
that the same `new` made earlier.

* `VType.Numbered`: the same type, with a number in place of a position;
* `Exec.relates_renamed`: operations do not depend on how objects are named, as long as they are told apart;
* `Inference.Walks`: paths along the frames that the analysis looks with, with the objects made on them;
* `uninitialized_newest`: the types that the analysis looks with stand for the newest objects.
-/

namespace Bytecode

/-! ## Other names for objects -/

/-- A relation that gives names of one kind at most one name of another kind, and the other way round. -/
structure OneToOne (R : Nat → Nat → Prop) : Prop where
  left : ∀ {m n p}, R m p → R n p → m = n
  right : ∀ {n p q}, R n p → R n q → p = q

theorem OneToOne.swap {R : Nat → Nat → Prop} (h : OneToOne R) : OneToOne fun p n => R n p :=
  ⟨fun hm hn => h.right hm hn, fun hp hq => h.left hp hq⟩

namespace VType

variable {R : Nat → Nat → Prop} {a b t : VType}

/-- An object under another name, or a type that says at least as much and stands for no object without a constructor. -/
inductive Renamed (R : Nat → Nat → Prop) : VType → VType → Prop
  | object {n p : Nat} {name : BinaryName} (h : R n p) : Renamed R (.uninitialized n name) (.uninitialized p name)
  | other {a b : VType} (hle : a ≤ b) (ha : ∀ n name, a ≠ .uninitialized n name) : Renamed R a b

/-- The same type, but for the name of an object. -/
inductive Numbered (R : Nat → Nat → Prop) : VType → VType → Prop
  | object {n p : Nat} {name : BinaryName} (h : R n p) : Numbered R (.uninitialized n name) (.uninitialized p name)
  | same {t : VType} (ht : ∀ n name, t ≠ .uninitialized n name) : Numbered R t t

theorem Numbered.renamed (h : Numbered R a b) : Renamed R a b := by
  cases h with
  | object h => exact .object h
  | same ht => exact .other (le_refl _) ht

theorem Numbered.swap (h : Numbered R a b) : Numbered (fun p n => R n p) b a := by
  cases h with
  | object h => exact .object h
  | same ht => exact .same ht

theorem Numbered.width (h : Numbered R a b) : Bytecode.width a = Bytecode.width b := by
  cases h with
  | object => rfl
  | same => rfl

/-- Types that are renamed both ways are the same but for the name. -/
theorem numbered_of_renamed (h : Renamed R a b) (h' : Renamed (fun p n => R n p) b a) : Numbered R a b := by
  cases h with
  | object h => exact .object h
  | other hle ha =>
    cases h' with
    | object => exact absurd rfl (ha _ _)
    | other hle' _ =>
      obtain rfl := le_antisymm hle hle'
      exact .same ha

theorem IsProper.renamed (h : t.IsProper) : Renamed R t t := by
  refine .other (le_refl t) ?_
  rintro n name rfl
  have hmade := h.isMadeAt n
  simp [VType.isMadeAt] at hmade

theorem Renamed.eq_ofNumeric {n : NumericType} (h : Renamed R a (.ofNumeric n)) : a = .ofNumeric n := by
  generalize hb : VType.ofNumeric n = b at h ⊢
  cases h with
  | object => cases n <;> simp [ofNumeric] at hb
  | other hle =>
    subst hb
    exact eq_of_le_ofNumeric hle

theorem Renamed.isUninitialized (h : Renamed R a b) (hb : b.isUninitialized = true) : a.isUninitialized = true := by
  cases h with
  | object => rfl
  | other hle => rwa [eq_of_le_of_isUninitialized hle hb]

/-- Initializing an object under both names: it is the same object, since there is one name of either kind for it. -/
theorem Renamed.replace {c d : VType} (hR : OneToOne R) (h : Renamed R a b) (hb : b.isUninitialized = true)
    (name : BinaryName) (hcd : Renamed R c d) :
    Renamed R (if c = a then .ofClass name else c) (if d = b then .ofClass name else d) := by
  have hclass : Renamed R (.ofClass name) (.ofClass name) := IsProper.renamed (Or.inl rfl)
  cases h with
  | @object n p _ hnp =>
    cases hcd with
    | @object m q _ hmq =>
      by_cases hsame : m = n
      · subst hsame
        obtain rfl := hR.right hnp hmq
        split
        · rename_i heq
          rw [if_pos (by rw [(VType.uninitialized.inj heq).2])]
          exact hclass
        · rename_i hne
          rw [if_neg (by rintro heq; exact hne (by rw [(VType.uninitialized.inj heq).2]))]
          exact .object hmq
      · have hother : q ≠ p := by
          rintro rfl
          exact hsame (hR.left hmq hnp)
        rw [if_neg (by simp [hsame]), if_neg (by simp [hother])]
        exact .object hmq
    | other hle hc =>
      rw [if_neg (hc _ _), if_neg]
      · exact .other hle hc
      · rintro rfl
        exact hc _ _ (eq_of_le_of_isUninitialized hle rfl)
  | other hle ha =>
    obtain rfl := eq_of_le_of_isUninitialized hle hb
    have hthis : a = .uninitializedThis := by
      cases a with
      | uninitializedThis => rfl
      | uninitialized n name => exact absurd rfl (ha n name)
      | _ => simp [VType.isUninitialized] at hb
    cases hcd with
    | object hmq =>
      rw [if_neg (by simp [hthis]), if_neg (by simp [hthis])]
      exact .object hmq
    | other hle' hc =>
      refine .other (Exec.swap_le hb name hle') ?_
      intro n name'
      split
      · simp [ofClass]
      · exact hc n name'

end VType

namespace Exec

/-- Operations do not depend on how objects without a constructor are named, as long as they are told apart. -/
theorem relates_renamed {R : Nat → Nat → Prop} (hR : OneToOne R) :
    Relates (fun a b => VType.Renamed R a b ∧ width a = width b) (VType.Renamed R) where
  width h := h.2
  numeric h := h.1.eq_ofNumeric
  initialized h hinit := by
    cases h.1 with
    | object => simp [VType.isInitialized] at hinit
    | other hle => exact hle
  this h := by
    cases h.1 with
    | other hle => exact VType.eq_of_le_of_isUninitialized hle rfl
  uninitialized h := by
    cases h.1 with
    | object => exact ⟨_, rfl⟩
    | other hle => exact ⟨_, VType.eq_of_le_of_isUninitialized hle rfl⟩
  address h := by
    cases h.1 with
    | other hle =>
      cases hle with
      | refl => rfl
  value {a b} hle hproper := by
    refine ⟨.other hle ?_, (relates_refines.value hle hproper).2⟩
    rintro n name rfl
    rcases VType.eq_or_eq_top hle rfl with rfl | rfl
    · have hmade := hproper.isMadeAt n
      simp [VType.isMadeAt] at hmade
    · exact absurd rfl hproper.isValue.1
  load h hreference := by
    refine ⟨h, ?_⟩
    cases h with
    | object => rfl
    | other hle => exact (relates_refines.load hle hreference).2
  loadNumeric h := h.eq_ofNumeric
  store h := h.1
  top := .other (le_refl _) (by simp)
  clear h hwide hnarrow := by
    cases h with
    | object => simp [Bytecode.width] at hwide
    | other hle => exact .other (relates_refines.clear hle hwide hnarrow) (by simp)
  replace {a b} h huninit name c d := by
    have hlocal : VType.Renamed R c d →
        VType.Renamed R (if c = a then .ofClass name else c) (if d = b then .ofClass name else d) :=
      VType.Renamed.replace hR h.1 huninit name
    refine ⟨fun hcd => ⟨hlocal hcd.1, ?_⟩, hlocal⟩
    rw [width_replace huninit, width_replace (h.1.isUninitialized huninit)]
    exact hcd.2

end Exec

/-! ## Frames with other names -/

namespace Frame

variable {setup : Setup} {R : Nat → Nat → Prop} {f f' a g : Frame}

/-- The same frame, but for the names of objects. -/
structure Numbered (R : Nat → Nat → Prop) (f a : Frame) : Prop where
  locals : List.Forall₂ (VType.Numbered R) f.locals a.locals
  stack : List.Forall₂ (VType.Numbered R) f.stack a.stack
  nesting : f.nesting = a.nesting

theorem Numbered.swap (h : f.Numbered R a) : a.Numbered (fun p n => R n p) f :=
  ⟨h.locals.flip.imp fun _ _ hab => hab.swap, h.stack.flip.imp fun _ _ hab => hab.swap, h.nesting.symm⟩

theorem Numbered.getElem? {k : Nat} {t : VType} (h : f.Numbered R a) (hk : f.locals[k]? = some t)
    (ht : ∀ n name, t ≠ .uninitialized n name) : a.locals[k]? = some t := by
  obtain ⟨u, hu, hnumbered⟩ := forall₂_getElem? h.locals.flip hk
  cases hnumbered with
  | object => exact absurd rfl (ht _ _)
  | same => exact hu

theorem Numbered.paired (h : f.Numbered R a) (hpaired : Exec.Paired a.locals) : Exec.Paired f.locals := by
  intro k t hk hwide
  have ha := h.getElem? hk (by rintro n name rfl; simp [width] at hwide)
  exact h.swap.getElem? (hpaired k t ha hwide) (by simp)

theorem Numbered.height_eq (h : f.Numbered R a) : f.height = a.height := by
  have hstack := h.stack
  unfold height
  generalize f.stack = stack at hstack
  generalize a.stack = stack' at hstack
  induction hstack with
  | nil => rfl
  | cons hab _ ih => rw [stackHeight_cons, stackHeight_cons, ih, hab.width]

theorem Numbered.related (h : f.Numbered R a) (hpaired : Exec.Paired a.locals) :
    f.Related (fun a b => VType.Renamed R a b ∧ width a = width b) (VType.Renamed R) a :=
  ⟨h.stack.imp fun _ _ hab => ⟨hab.renamed, hab.width⟩, h.locals.imp fun _ _ hab => hab.renamed, h.paired hpaired, hpaired⟩

/-- Frames that are renamed both ways are the same but for the names. -/
theorem numbered_of_related {A B : VType → VType → Prop}
    (h : f.Related (fun a b => VType.Renamed R a b ∧ A a b) (VType.Renamed R) a)
    (h' : a.Related (fun a b => VType.Renamed (fun p n => R n p) a b ∧ B a b) (VType.Renamed fun p n => R n p) f)
    (hnesting : f.nesting = a.nesting) : f.Numbered R a := by
  have hboth : ∀ {ts us : List VType}, List.Forall₂ (VType.Renamed R) ts us →
      List.Forall₂ (VType.Renamed fun p n => R n p) us ts → List.Forall₂ (VType.Numbered R) ts us := by
    intro ts us hforth hback
    rw [List.forall₂_iff_zip] at hforth ⊢
    refine ⟨hforth.1, fun hmem => VType.numbered_of_renamed (hforth.2 hmem) ?_⟩
    exact (List.forall₂_iff_zip.mp hback.flip).2 hmem
  exact ⟨hboth h.locals h'.locals, hboth (h.stack.imp fun _ _ hab => hab.1) (h'.stack.imp fun _ _ hab => hab.1), hnesting⟩

/-- An operation on the same frame with other names, where a new object gets its name of the other kind. -/
theorem Numbered.after {op : Op} {number position : Nat} (hR : OneToOne R) (h : f.Numbered R a)
    (hpaired : Exec.Paired a.locals) (hload : setup.method.constants.GivesProper)
    (hnew : ∀ index, op = .newObject index → R number position)
    (hafter : a.after op (setup.context position) = .ok g) :
    ∃ f', f.after op (setup.context number) = .ok f' ∧ f'.Numbered R g := by
  have hstores : f.StoresAlike op := by
    intro index entry rest old hop hstack hold
    have hstack' := h.stack
    rw [hstack] at hstack'
    obtain ⟨u, rest', hu, -, hstack'⟩ := List.forall₂_cons_left_iff.mp hstack'
    cases hu
    exact storesAlike_of_after hafter index entry rest' old hop hstack' (h.getElem? hold (by simp))
  obtain ⟨⟨u, hrun⟩, hheight⟩ := after_eq_ok.mp hafter
  obtain ⟨f', hrun', hforth⟩ := @Exec.Relates.run _ _ (Exec.relates_renamed hR) op (setup.context position) number f a g u
    (fun index t ht => ⟨(hload index t ht).renamed, rfl⟩) (fun index hop name => ⟨.object (hnew index hop), rfl⟩)
    hstores (h.related hpaired) hrun
  -- the other way round the operation leads back to the frame that it left
  obtain ⟨g', hrun'', hback⟩ := @Exec.Relates.run _ _ (Exec.relates_renamed hR.swap) op (setup.context number) position a f
    f' u (fun index t ht => ⟨(hload index t ht).renamed, rfl⟩) (fun index hop name => ⟨.object (hnew index hop), rfl⟩)
    (storesAlike_of_after hafter) (h.swap.related (h.paired hpaired)) hrun'
  obtain ⟨-, rfl⟩ := Prod.mk.inj (Except.ok.inj (hrun.symm.trans hrun''))
  have hnesting : f'.nesting = g.nesting := by
    rw [(Exec.sameShape_effect.run op _ f u f' hrun').2, (Exec.sameShape_effect.run op _ a u g hrun).2, h.nesting]
  have hnumbered := numbered_of_related hforth hback hnesting
  exact ⟨f', after_eq_ok.mpr ⟨⟨u, hrun'⟩, hnumbered.height_eq ▸ hheight⟩, hnumbered⟩

/-- What treats renamed objects alike, whatever they are called, keeps frames the same but for the names. -/
theorem Numbered.of_relates {run : Frame → Except VerifyFault Frame}
    (hrelates : ∀ {R : Nat → Nat → Prop} {f a g : Frame}, OneToOne R →
      f.Related (fun a b => VType.Renamed R a b ∧ width a = width b) (VType.Renamed R) a → run a = .ok g →
      ∃ f', run f = .ok f' ∧ f'.Related (fun a b => VType.Renamed R a b ∧ width a = width b) (VType.Renamed R) g)
    (hnesting : ∀ {f g : Frame}, run f = .ok g → g.nesting = f.nesting) (hR : OneToOne R) (h : f.Numbered R a)
    (hpaired : Exec.Paired a.locals) (hrun : run a = .ok g) : ∃ f', run f = .ok f' ∧ f'.Numbered R g := by
  obtain ⟨f', hrun', hforth⟩ := hrelates hR (h.related hpaired) hrun
  obtain ⟨g', hrun'', hback⟩ := hrelates hR.swap (h.swap.related (h.paired hpaired)) hrun'
  obtain rfl := Except.ok.inj (hrun.symm.trans hrun'')
  refine ⟨f', hrun', numbered_of_related hforth hback ?_⟩
  rw [hnesting hrun', hnesting hrun, h.nesting]

theorem Numbered.executeBranch {kind : BranchKind} (hR : OneToOne R) (h : f.Numbered R a) (hpaired : Exec.Paired a.locals)
    (hbranch : a.executeBranch kind = .ok g) : ∃ f', f.executeBranch kind = .ok f' ∧ f'.Numbered R g :=
  Numbered.of_relates (fun hR => (Exec.relates_renamed hR).executeBranch)
    (fun hrun => (executeBranch_effect Exec.sameShape_effect hrun).2) hR h hpaired hbranch

theorem Numbered.executeSelect (hR : OneToOne R) (h : f.Numbered R a) (hpaired : Exec.Paired a.locals)
    (hselect : a.executeSelect = .ok g) : ∃ f', f.executeSelect = .ok f' ∧ f'.Numbered R g :=
  Numbered.of_relates (fun hR => (Exec.relates_renamed hR).executeSelect)
    (fun hrun => (executeSelect_effect Exec.sameShape_effect hrun).2) hR h hpaired hselect

/-- The frame in which a handler starts. -/
theorem Numbered.caught {handler : Handler} (h : f.Numbered R a) (hcatch : handler.catchType.isInitialized = true)
    (hcaught : Session.Caught setup handler a g) : ∃ f', Session.Caught setup handler f f' ∧ f'.Numbered R g := by
  obtain ⟨rfl, hheight⟩ := checkHeight_eq_ok.mp hcaught
  refine ⟨⟨f.locals, [handler.catchType], f.nesting⟩, checkHeight_eq_ok.mpr ⟨rfl, hheight⟩, h.locals, ?_, h.nesting⟩
  refine .cons (.same ?_) .nil
  rintro n name heq
  rw [heq] at hcatch
  simp [VType.isInitialized] at hcatch

/-- Giving up objects without a constructor gives them up under both names. -/
theorem Numbered.withoutUninitialized (h : f.Numbered R a) :
    List.Forall₂ (VType.Numbered R) f.withoutUninitialized.locals a.withoutUninitialized.locals := by
  unfold Frame.withoutUninitialized
  rw [List.forall₂_map_left_iff, List.forall₂_map_right_iff]
  refine h.locals.imp fun t u htu => ?_
  cases htu with
  | object => exact .same (by simp [VType.isUninitialized])
  | same ht =>
    split
    · exact .same (by simp)
    · exact .same ht

/-- The frame in which a subroutine starts. -/
theorem Numbered.startFrame {entry : Nat} (h : f.Numbered R a) (hstart : Session.startFrame setup entry a = .ok g) :
    ∃ f', Session.startFrame setup entry f = .ok f' ∧ f'.Numbered R g := by
  obtain ⟨hlocals, hstack, hnesting, hnew, hheight⟩ := Session.startFrame_eq_ok hstart
  have hnumbered : Frame.Numbered R ⟨f.withoutUninitialized.locals, .returnAddress entry :: f.stack, f.nesting ++ [entry]⟩ g := by
    refine ⟨hlocals ▸ h.withoutUninitialized, ?_, by rw [hnesting, h.nesting]⟩
    rw [hstack]
    exact .cons (.same (by simp)) h.stack
  refine ⟨_, ?_, hnumbered⟩
  have hfree : f.nesting.contains entry = false := by
    rw [h.nesting]
    simpa using hnew
  have hpush : f.push (.returnAddress entry) setup.maxStack = .ok ⟨f.locals, .returnAddress entry :: f.stack, f.nesting⟩ :=
    checkHeight_eq_ok.mpr ⟨rfl, hnumbered.height_eq ▸ hheight⟩
  unfold Session.startFrame Nesting.enter
  simp only [hpush, hfree, bind, Except.bind]
  rfl

end Frame

/-! ## Objects made on a path -/

/-- The newest object from a position.  Objects are numbered in the order in which they are made, and `made` lists the
positions of the `new` instructions that made them. -/
def IsNewest (made : List Nat) (n p : Nat) : Prop := made[n]? = some p ∧ ∀ m, made[m]? = some p → m ≤ n

theorem oneToOne_isNewest (made : List Nat) : OneToOne (IsNewest made) where
  left hm hn := Nat.le_antisymm (hn.2 _ hm.1) (hm.2 _ hn.1)
  right hp hq := Option.some.inj (hp.1.symm.trans hq.1)

/-- An object stays the newest one while others are made elsewhere. -/
theorem IsNewest.append {made : List Nat} {n p q : Nat} (h : IsNewest made n p) (hne : p ≠ q) :
    IsNewest (made ++ [q]) n p := by
  refine ⟨?_, ?_⟩
  · rw [List.getElem?_append_left (List.getElem?_eq_some_iff.mp h.1).1]
    exact h.1
  · intro m hm
    rcases Nat.lt_or_ge m made.length with hlt | hge
    · rw [List.getElem?_append_left hlt] at hm
      exact h.2 m hm
    · rw [List.getElem?_append_right hge, List.getElem?_singleton] at hm
      split at hm
      · exact absurd (Option.some.inj hm).symm hne
      · simp at hm

theorem isNewest_last (made : List Nat) (q : Nat) : IsNewest (made ++ [q]) made.length q := by
  refine ⟨by simp, ?_⟩
  intro m hm
  have hlt := (List.getElem?_eq_some_iff.mp hm).1
  rw [List.length_append, List.length_singleton] at hlt
  omega

/-- The objects that are made once an operation has run. -/
def Op.made (op : Op) (position : Nat) (made : List Nat) : List Nat :=
  match op with
  | .newObject _ => made ++ [position]
  | _ => made

namespace Frame

variable {setup : Setup} {R : Nat → Nat → Prop} {made : List Nat} {f a b g : Frame} {p : Nat}

/-- A frame without objects names none. -/
theorem numbered_self (h : ∀ p, a.Lacks p) : a.Numbered R a := by
  have hslots : ∀ {ts : List VType}, (∀ p, ∀ t ∈ ts, t.isMadeAt p = false) → List.Forall₂ (VType.Numbered R) ts ts := by
    intro ts hts
    refine List.forall₂_same.mpr fun t ht => .same ?_
    rintro n name rfl
    have hmade := hts n _ ht
    simp [VType.isMadeAt] at hmade
  exact ⟨hslots fun p => (lacks_iff.mp (h p)).1, hslots fun p => (lacks_iff.mp (h p)).2, rfl⟩

/-- Where a frame has no object from a position, another one may be made there. -/
theorem Numbered.append (h : f.Numbered (IsNewest made) a) (hlacks : a.Lacks p) :
    f.Numbered (IsNewest (made ++ [p])) a := by
  rw [lacks_iff] at hlacks
  have hslots : ∀ {ts us : List VType}, List.Forall₂ (VType.Numbered (IsNewest made)) ts us →
      (∀ u ∈ us, u.isMadeAt p = false) → List.Forall₂ (VType.Numbered (IsNewest (made ++ [p]))) ts us := by
    intro ts us hnumbered hus
    rw [List.forall₂_iff_zip] at hnumbered ⊢
    refine ⟨hnumbered.1, fun {t u} hmem => ?_⟩
    have hmade := hus u (List.of_mem_zip hmem).2
    cases hnumbered.2 hmem with
    | object hnewest =>
      refine .object (hnewest.append ?_)
      rintro rfl
      simp [VType.isMadeAt] at hmade
    | same ht => exact .same ht
  exact ⟨hslots h.locals hlacks.1, hslots h.stack hlacks.2, h.nesting⟩

/-- An operation, with the number of objects that there are as the name of a new one. -/
theorem Numbered.after_made {op : Op} (h : f.Numbered (IsNewest made) a) (hpaired : Exec.Paired a.locals)
    (hload : setup.method.constants.GivesProper) (hlacks : a.Lacks p) (hafter : a.after op (setup.context p) = .ok g) :
    ∃ f', f.after op (setup.context made.length) = .ok f' ∧ f'.Numbered (IsNewest (op.made p made)) g := by
  cases op with
  | newObject index =>
    exact (h.append hlacks).after (oneToOne_isNewest _) hpaired hload (fun _ _ => isNewest_last made p) hafter
  | _ => exact h.after (oneToOne_isNewest _) hpaired hload (by simp) hafter

end Frame

/-- What is known of a value, once less is known of the place where it is: objects without a constructor stay told apart. -/
def VType.carried (t u : VType) : VType := if u.isUninitialized then t else u

/-- A frame at a place that is looked at with another one, which says less. -/
def Frame.carried (f b : Frame) : Frame :=
  ⟨List.zipWith VType.carried f.locals b.locals, List.zipWith VType.carried f.stack b.stack, b.nesting⟩

theorem Frame.Numbered.carried {R : Nat → Nat → Prop} {f g b : Frame} (h : f.Numbered R g) (hbelow : g.Below b) :
    (f.carried b).Numbered R b := by
  have hslots : ∀ {ts us : List VType}, List.Forall₂ (VType.Numbered R) ts us → ∀ {vs : List VType},
      List.Forall₂ (· ≤ ·) us vs → List.Forall₂ (VType.Numbered R) (List.zipWith VType.carried ts vs) vs := by
    intro ts us hnumbered
    induction hnumbered with
    | nil =>
      intro vs hle
      cases hle
      exact .nil
    | @cons t u ts us htu _ ih =>
      intro vs hle
      obtain ⟨v, vs, hv, hvs, rfl⟩ := List.forall₂_cons_left_iff.mp hle
      refine .cons ?_ (ih hvs)
      unfold VType.carried
      split
      · rename_i huninit
        rwa [← VType.eq_of_le_of_isUninitialized hv huninit]
      · rename_i hother
        refine .same ?_
        rintro n name rfl
        exact hother rfl
  exact ⟨hslots h.locals hbelow.locals, hslots h.stack (hbelow.stack.imp fun _ _ hrefines => hrefines.1), rfl⟩

/-! ## Paths -/

/-- How control leaves an instruction. -/
inductive Exit where
  | falls
  | jumps (target : Nat)
  | throws (handler : Handler)
  | throwsAfter (handler : Handler)
  | calls (entry : Nat)

/-- The objects that are made once control has left an instruction. -/
def Exit.made (exit : Exit) (i : Instruction) (made : List Nat) : List Nat :=
  match exit, i.flow with
  | .falls, .plain op | .throwsAfter _, .plain op => op.made i.position made
  | _, _ => made

/-- Control leaves an instruction in some way with a frame, to a position, with another frame; `name` names the object
that is made. -/
inductive Setup.Exits (setup : Setup) (i : Instruction) (name : Nat) (f : Frame) : Exit → Nat → Frame → Prop
  | falls {g : Frame} (h : i.onward (setup.context name) f = some g) : Exits setup i name f .falls i.next g
  | jumps {kind : BranchKind} {target : Nat} {g : Frame} (hflow : i.flow = .branch kind target)
      (h : f.executeBranch kind = .ok g) : Exits setup i name f (.jumps target) target g
  | selects {default target : Nat} {cases : Cases} {g : Frame} (hflow : i.flow = .select default cases)
      (hmem : target ∈ default :: cases.targets) (h : f.executeSelect = .ok g) :
      Exits setup i name f (.jumps target) target g
  | throws {handler : Handler} {g : Frame} (hmem : handler ∈ setup.handlers) (hcovers : handler.covers i.position = true)
      (h : Session.Caught setup handler f g) : Exits setup i name f (.throws handler) handler.target g
  | throwsAfter {op : Op} {handler : Handler} {after g : Frame} (hflow : i.flow = .plain op) (hstore : i.flags.store = true)
      (hafter : f.after op (setup.context name) = .ok after) (hmem : handler ∈ setup.handlers)
      (hcovers : handler.covers i.position = true) (h : Session.Caught setup handler after g) :
      Exits setup i name f (.throwsAfter handler) handler.target g
  | calls {entry : Nat} {g : Frame} (hflow : i.flow = .jsr entry) (h : Session.startFrame setup entry f = .ok g) :
      Exits setup i name f (.calls entry) entry g

/-- What leaves an instruction with the objects named by positions leaves it in the same way with the newest objects
named by numbers. -/
theorem Setup.Exits.numbered {setup : Setup} {made : List Nat} {i : Instruction} {f a g : Frame} {exit : Exit} {target : Nat}
    (hcaught : ∀ handler ∈ setup.handlers, handler.catchType.isInitialized = true)
    (hload : setup.method.constants.GivesProper) (hpaired : Exec.Paired a.locals)
    (hlacks : ∀ op, i.flow = .plain op → a.Lacks i.position) (h : f.Numbered (IsNewest made) a)
    (hexit : setup.Exits i i.position a exit target g) :
    ∃ f', setup.Exits i made.length f exit target f' ∧ f'.Numbered (IsNewest (exit.made i made)) g := by
  have hone := oneToOne_isNewest made
  cases hexit with
  | falls hon =>
    unfold Instruction.onward at hon
    cases hflow : i.flow with
    | plain op =>
      simp only [hflow] at hon
      split at hon
      · simp at hon
      · rename_i hstop
        obtain ⟨f', hf', hnumbered⟩ := h.after_made hpaired hload (hlacks op hflow) (toOption_eq_some.mp hon)
        refine ⟨f', .falls ?_, by simpa [Exit.made, hflow] using hnumbered⟩
        simp only [Instruction.onward, hflow, if_neg hstop, hf', Except.toOption]
    | branch kind target =>
      simp only [hflow] at hon
      split at hon
      · simp at hon
      · rename_i hkind
        obtain ⟨f', hf', hnumbered⟩ := h.executeBranch hone hpaired (toOption_eq_some.mp hon)
        refine ⟨f', .falls ?_, by simpa [Exit.made, hflow] using hnumbered⟩
        simp only [Instruction.onward, hflow, if_neg hkind, hf', Except.toOption]
    | select default cases => simp [hflow] at hon
    | jsr entry => simp [hflow] at hon
    | ret slot => simp [hflow] at hon
  | jumps hflow hbranch =>
    obtain ⟨f', hf', hnumbered⟩ := h.executeBranch hone hpaired hbranch
    exact ⟨f', .jumps hflow hf', hnumbered⟩
  | selects hflow hmem hselect =>
    obtain ⟨f', hf', hnumbered⟩ := h.executeSelect hone hpaired hselect
    exact ⟨f', .selects hflow hmem hf', hnumbered⟩
  | throws hmem hcovers hcatch =>
    obtain ⟨f', hf', hnumbered⟩ := h.caught (hcaught _ hmem) hcatch
    exact ⟨f', .throws hmem hcovers hf', hnumbered⟩
  | throwsAfter hflow hstore hafter hmem hcovers hcatch =>
    obtain ⟨after, hafter', hnumbered⟩ := h.after_made hpaired hload (hlacks _ hflow) hafter
    obtain ⟨f', hf', hnumbered⟩ := hnumbered.caught (hcaught _ hmem) hcatch
    exact ⟨f', .throwsAfter hflow hstore hafter' hmem hcovers hf', by simpa [Exit.made, hflow] using hnumbered⟩
  | calls hflow hstart =>
    obtain ⟨f', hf', hnumbered⟩ := h.startFrame hstart
    exact ⟨f', .calls hflow hf', hnumbered⟩

/-- An instruction leaves in one way with one frame only. -/
theorem Setup.Exits.unique {setup : Setup} {i : Instruction} {name target target' : Nat} {f g g' : Frame} {exit : Exit}
    (h : setup.Exits i name f exit target g) (h' : setup.Exits i name f exit target' g') : g = g' := by
  cases h with
  | falls h =>
    cases h' with
    | falls h' => exact Option.some.inj (h.symm.trans h')
  | jumps hflow h =>
    cases h' with
    | jumps hflow' h' =>
      obtain ⟨rfl, -⟩ := Flow.branch.inj (hflow.symm.trans hflow')
      exact Except.ok.inj (h.symm.trans h')
    | selects hflow' => simp [hflow] at hflow'
  | selects hflow _ h =>
    cases h' with
    | jumps hflow' => simp [hflow] at hflow'
    | selects _ _ h' => exact Except.ok.inj (h.symm.trans h')
  | throws _ _ h =>
    cases h' with
    | throws _ _ h' => exact Except.ok.inj (h.symm.trans h')
  | throwsAfter hflow _ hafter _ _ h =>
    cases h' with
    | throwsAfter hflow' _ hafter' _ _ h' =>
      obtain rfl := Flow.plain.inj (hflow.symm.trans hflow')
      obtain rfl := Except.ok.inj (hafter.symm.trans hafter')
      exact Except.ok.inj (h.symm.trans h')
  | calls _ h =>
    cases h' with
    | calls _ h' => exact Except.ok.inj (h.symm.trans h')

/-- Where a subroutine returns, the stack of the `ret` is kept, and no local holds an object without a constructor. -/
theorem Frame.Numbered.returned {R : Nat → Nat → Prop} {f a : Frame} (h : f.Numbered R a) (call : Frame) (slot : Nat)
    (accessed : Nat → Bool) :
    Frame.Numbered R { Session.continuationFrame call a slot accessed with stack := f.stack }
      (Session.continuationFrame call a slot accessed) := by
  refine ⟨?_, h.stack, rfl⟩
  refine List.forall₂_same.mpr fun t ht => .same ?_
  obtain ⟨u, -, rfl⟩ := List.mem_map.mp ht
  rintro n name heq
  split at heq
  · simp at heq
  · rename_i huninit
    simp [heq, VType.isUninitialized] at huninit

namespace Inference

/-- The paths that the analysis has looked along, with the objects made on them: the path has come to the instruction
with an index, which is looked at with the frame `a`, and `f` is what the path brings there with the objects numbered. -/
inductive Walks (setup : Setup) (entry : Frame) : List Nat → Nat → Frame → Frame → Prop
  | enter {a : Frame} {s : Session} (hlook : Passes setup entry (some (0, a)) s) (hbelow : entry.Below a) :
      Walks setup entry [] 0 a a
  /-- The place is looked at with a frame that says less. -/
  | again {made : List Nat} {index : Nat} {a b f : Frame} {s : Session} (h : Walks setup entry made index a f)
      (hlook : Passes setup entry (some (index, b)) s) (hbelow : a.Below b) : Walks setup entry made index b (f.carried b)
  /-- Control leaves the instruction, and the place where it comes to is looked at. -/
  | exits {made : List Nat} {index index' target : Nat} {i i' : Instruction} {a b f f' g : Frame} {exit : Exit} {s : Session}
      (h : Walks setup entry made index a f) (hi : setup.body.get? index = some i)
      (hexit : setup.Exits i i.position a exit target g) (hexit' : setup.Exits i made.length f exit target f')
      (hi' : setup.body.get? index' = some i') (hposition : i'.position = target)
      (hlook : Passes setup entry (some (index', b)) s) (hbelow : g.Below b) :
      Walks setup entry (exit.made i made) index' b (f'.carried b)
  /-- A subroutine returns to a call, with the locals taken as accessed that are known to be so at a look at the `ret`. -/
  | returns {made : List Nat} {index index' callee jsr : Nat} {i i' caller : Instruction} {slot : UInt16} {a b f : Frame}
      {sub : Subroutine} {site : CallSite} {look : Option (Nat × Frame)} {s t u : Session}
      (h : Walks setup entry made index a f) (hi : setup.body.get? index = some i) (hflow : i.flow = .ret slot)
      (haddress : a.locals[slot.toNat]? = some (.returnAddress callee)) (hret : Passes setup entry (some (index, a)) s)
      (hsub : s.registry.get? callee = some sub) (hcall : Passes setup entry look t) (hsite : t.calls.get? jsr = some site)
      (hentry : site.entry = callee) (hcaller : setup.body.startingAt? jsr = some caller)
      (hi' : setup.body.get? index' = some i') (hposition : i'.position = caller.next)
      (hlook : Passes setup entry (some (index', b)) u)
      (hbelow : (Session.continuationFrame site.frame a slot.toNat sub.isAccessed).Below b) :
      Walks setup entry made index' b
        ({ Session.continuationFrame site.frame a slot.toNat sub.isAccessed with stack := f.stack }.carried b)

variable {setup : Setup} {code : List UInt8} {entry a f : Frame} {made : List Nat} {index : Nat}

/-- Paths go along looks. -/
theorem Walks.looks (h : Walks setup entry made index a f) : ∃ s, Passes setup entry (some (index, a)) s := by
  cases h with
  | enter hlook => exact ⟨_, hlook⟩
  | again _ hlook => exact ⟨_, hlook⟩
  | exits _ _ _ _ _ _ hlook => exact ⟨_, hlook⟩
  | returns _ _ _ _ _ _ _ _ _ _ _ _ hlook => exact ⟨_, hlook⟩

/-- What is asked of a method that is about to be analysed, so that its objects can be told apart. -/
structure Tells (setup : Setup) (code : List UInt8) (entry : Frame) : Prop where
  prepared : setup.Prepared code
  fits : entry.Fits setup
  caught : ∀ handler ∈ setup.handlers, handler.catchType.isInitialized = true
  load : setup.method.constants.GivesProper
  regular : ∀ r, entry.Regular setup r
  lacks : ∀ p, entry.Lacks p

/-- The two ways of naming objects agree at an instruction that is looked at, so they agree wherever control leaves to. -/
theorem Tells.exits {s : Session} {i : Instruction} {exit : Exit} {target : Nat} {g : Frame} (ht : Tells setup code entry)
    (hlook : Passes setup entry (some (index, a)) s) (hi : setup.body.get? index = some i) (h : f.Numbered (IsNewest made) a)
    (hexit : setup.Exits i i.position a exit target g) :
    ∃ f', setup.Exits i made.length f exit target f' ∧ f'.Numbered (IsNewest (exit.made i made)) g := by
  obtain ⟨-, -, hfits, -⟩ := hlook.keeps ht.prepared ht.fits
  exact hexit.numbered ht.caught ht.load hfits.paired
    (fun _ hflow => hlook.lacks ht.prepared ht.fits ht.caught ht.load ht.regular (ht.lacks _) hi hflow) h

/-- Along every path, an object that is known by a position is the newest one from there. -/
theorem Walks.numbered (ht : Tells setup code entry) (h : Walks setup entry made index a f) :
    f.Numbered (IsNewest made) a := by
  induction h with
  | enter _ hbelow => exact Frame.numbered_self fun p => (ht.lacks p).of_below hbelow
  | again _ _ hbelow ih => exact ih.carried hbelow
  | exits hwalks hi hexit hexit' _ _ _ hbelow ih =>
    obtain ⟨s, hlook⟩ := hwalks.looks
    obtain ⟨f', hf', hnumbered⟩ := ht.exits hlook hi ih hexit
    obtain rfl := hf'.unique hexit'
    exact hnumbered.carried hbelow
  | returns _ _ _ _ _ _ _ _ _ _ _ _ _ hbelow ih => exact (ih.returned _ _ _).carried hbelow

/-! ## Paths of an accepted method -/

section

variable {s u : Session} {i : Instruction} {g : Frame} {target : Nat} {exit : Exit}

/-- What is known at the end of the analysis has been looked at. -/
theorem looks_of_delivered (hp : setup.Prepared code) (hentry : entry.Fits setup) (hanalyse : analyse setup entry = .ok s)
    (hidle : s.worklist = []) (h : s.Delivered target g) : ∃ index i b u, setup.body.get? index = some i ∧
      i.position = target ∧ Passes setup entry (some (index, b)) u ∧ g.Below b := by
  obtain ⟨st, hst, hbelow⟩ := h
  rcases (passes_analyse hp hanalyse).seen hp hentry target st hst with hmem | ⟨index, u, hindex, hlook⟩
  · rw [hidle] at hmem
    simp at hmem
  · obtain ⟨i, hi, hposition⟩ := hp.tiles.indexOf?_eq_some_iff.mp hindex
    exact ⟨index, i, st.frame, u, hi, hposition, hlook, hbelow⟩

/-- Where an instruction passes control on to, the analysis looks. -/
theorem Passes.looks_of_onward (hp : setup.Prepared code) (hentry : entry.Fits setup)
    (hanalyse : analyse setup entry = .ok s) (hidle : s.worklist = []) (h : Passes setup entry (some (index, a)) u)
    (hi : setup.body.get? index = some i) (honward : i.onward (setup.context i.position) a = some g) :
    ∃ index i' b u, setup.body.get? index = some i' ∧ i'.position = i.next ∧ Passes setup entry (some (index, b)) u ∧
      g.Below b := by
  obtain ⟨t, next, hone, hrest⟩ := (h.endsWith hp hanalyse).goesOn hp hi
  obtain ⟨-, hnext⟩ := h.looksAt hp hentry hi hone
  rw [honward] at hnext
  subst hnext
  obtain ⟨i', hi', hmet, -⟩ := hrest
  have hposition := hp.tiles.position_succ hi hi'
  cases hmerged : t.isMerged setup i'.position with
  | false => exact ⟨index + 1, i', g, t, hi', hposition, .on h hi hone hi' hmerged, .refl g⟩
  | true =>
    obtain ⟨w, hmerge, -⟩ := hmet hmerged
    obtain ⟨-, -, st, hst, hbelow⟩ := h.merged hp hentry hi hone hmerged hmerge
    obtain ⟨st', hst', hbelow'⟩ :=
      ((Passes.met h hi hone hi' hmerged hmerge).remembers hp hentry hanalyse).states _ st hst
    rw [← hposition]
    exact looks_of_delivered hp hentry hanalyse hidle ⟨st', hst', hbelow.trans hbelow'⟩

/-- In whatever way control leaves an instruction that is looked at, it leaves with the frame of the look in the same way,
and the analysis looks where it comes to. -/
theorem Passes.looks_of_exits {n : Nat} {f' : Frame} (hp : setup.Prepared code) (hentry : entry.Fits setup)
    (hanalyse : analyse setup entry = .ok s) (hidle : s.worklist = []) (h : Passes setup entry (some (index, a)) u)
    (hi : setup.body.get? index = some i) (hexit : setup.Exits i n f exit target f') :
    ∃ g index i' b u, setup.Exits i i.position a exit target g ∧ setup.body.get? index = some i' ∧ i'.position = target ∧
      Passes setup entry (some (index, b)) u ∧ g.Below b := by
  obtain ⟨t, next, hone, hremembers⟩ := h.goesThrough hp hentry hanalyse hi
  obtain ⟨hlooks, hnext⟩ := h.looksAt hp hentry hi hone
  have hend : ∀ {g}, setup.Exits i i.position a exit target g → t.Delivered target g →
      ∃ g index i' b u, setup.Exits i i.position a exit target g ∧ setup.body.get? index = some i' ∧
        i'.position = target ∧ Passes setup entry (some (index, b)) u ∧ g.Below b := by
    rintro g hexit ⟨st, hst, hbelow⟩
    obtain ⟨st', hst', hbelow'⟩ := hremembers.states target st hst
    obtain ⟨index, i', b, u, hlook⟩ := looks_of_delivered hp hentry hanalyse hidle ⟨st', hst', hbelow.trans hbelow'⟩
    exact ⟨g, index, i', b, u, hexit, hlook⟩
  have hflow := hlooks.handled.flow
  unfold Session.FlowHandled at hflow
  cases hexit with
  | falls hon =>
    obtain ⟨g, hg⟩ := hlooks.handled.onward_of_runsOn (Instruction.runsOn_of_onward hon)
    obtain ⟨index', i', b, u', hlook⟩ := h.looks_of_onward hp hentry hanalyse hidle hi hg
    exact ⟨g, index', i', b, u', .falls hg, hlook⟩
  | jumps hcase _ =>
    simp only [hcase] at hflow
    obtain ⟨g, hg, hdelivered⟩ := hflow
    exact hend (.jumps hcase hg) hdelivered
  | selects hcase hmem _ =>
    simp only [hcase] at hflow
    obtain ⟨g, hg, hdelivered⟩ := hflow
    exact hend (.selects hcase hmem hg) (hdelivered _ hmem)
  | throws hmem hcovers _ =>
    obtain ⟨g, hg, hdelivered⟩ := hlooks.handled.handlers _ hmem hcovers
    exact hend (.throws hmem hcovers hg) hdelivered
  | throwsAfter hcase hstore _ hmem hcovers _ =>
    simp only [hcase] at hflow
    obtain ⟨after, hafter, hreached, -⟩ := hflow
    obtain ⟨g, hg, hdelivered⟩ := hreached hstore _ hmem hcovers
    exact hend (.throwsAfter hcase hstore hafter hmem hcovers hg) hdelivered
  | calls hcase _ =>
    simp only [hcase] at hflow
    obtain ⟨g, hg, hdelivered⟩ := hflow.start
    exact hend (.calls hcase hg) hdelivered

end

end Inference

/-- A path through an accepted method goes on wherever control goes. -/
theorem Settled.walks_exits {method : Method} {v : Verified} {setup : Setup} {s : Session} {entry a f f' : Frame}
    {made : List Nat} {index target : Nat} {i : Instruction} {exit : Exit} (h : Settled method v setup s)
    (hprepare : Inference.prepare false method = .ok (setup, entry)) (hwalks : Inference.Walks setup entry made index a f)
    (hi : setup.body.get? index = some i) (hexit : setup.Exits i made.length f exit target f') :
    ∃ index' i' b, setup.body.get? index' = some i' ∧ i'.position = target ∧
      Inference.Walks setup entry (exit.made i made) index' b (f'.carried b) := by
  obtain ⟨entry', -, hfits, hprepare', hanalyse⟩ := h.explores
  obtain ⟨-, rfl⟩ := Prod.mk.inj (Except.ok.inj (hprepare.symm.trans hprepare'))
  obtain ⟨u, hlook⟩ := hwalks.looks
  obtain ⟨g, index', i', b, u', hexit', hi', hposition, hlook', hbelow⟩ :=
    hlook.looks_of_exits h.prepared hfits hanalyse h.idle hi hexit
  exact ⟨index', i', b, hi', hposition, .exits hwalks hi hexit' hexit hi' hposition hlook' hbelow⟩

/-- A path through an accepted method returns from a subroutine to every call of it. -/
theorem Settled.walks_returns {method : Method} {v : Verified} {setup : Setup} {s u : Session} {entry a f before : Frame}
    {made : List Nat} {index jsrIndex callee : Nat} {i jsr : Instruction} {slot : UInt16} (h : Settled method v setup s)
    (hprepare : Inference.prepare false method = .ok (setup, entry)) (hwalks : Inference.Walks setup entry made index a f)
    (hi : setup.body.get? index = some i) (hflow : i.flow = .ret slot)
    (haddress : a.locals[slot.toNat]? = some (.returnAddress callee))
    (hcall : Inference.Passes setup entry (some (jsrIndex, before)) u) (hjsr : setup.body.get? jsrIndex = some jsr)
    (hcallee : jsr.flow = .jsr callee) :
    ∃ index' i' b f', setup.body.get? index' = some i' ∧ i'.position = jsr.next ∧
      Inference.Walks setup entry made index' b f' := by
  obtain ⟨entry', -, hfits, hprepare', hanalyse⟩ := h.explores
  obtain ⟨-, rfl⟩ := Prod.mk.inj (Except.ok.inj (hprepare.symm.trans hprepare'))
  have hp := h.prepared
  -- looks at the `ret` and at the call with the frames that are left right before them
  have hlast : ∀ {index frame u}, Inference.Passes setup entry (some (index, frame)) u →
      ∃ after, v.frameBefore? method index = some after ∧ frame.Below after := fun hlook =>
    h.below_of_arrives ((hlook.arrives hp hfits hanalyse).1 _ _ rfl)
  obtain ⟨w, hlook⟩ := hwalks.looks
  obtain ⟨b, hb, hbelow⟩ := hlast hlook
  obtain ⟨before', hbefore', -⟩ := hlast hcall
  rw [← h.body_eq] at hi hjsr
  have haddress' : b.locals[slot.toNat]? = some (.returnAddress callee) := by
    have hret := (h.handled hi hb).flow
    unfold Session.FlowHandled at hret
    simp only [hflow] at hret
    obtain ⟨-, callee', hleft, -⟩ := hret
    obtain ⟨t, ht, hle⟩ := forall₂_getElem? hbelow.locals hleft.address
    obtain rfl := Option.some.inj (haddress.symm.trans ht)
    rw [hleft.address, VType.eq_of_le_returnAddress hle]
  obtain ⟨site, hsite, hentry, -⟩ : ∃ site, s.calls.get? jsr.position = some site ∧ site.entry = callee ∧
      before'.LocallyBelow site.frame := by
    have hhandled := (h.handled hjsr hbefore').flow
    unfold Session.FlowHandled at hhandled
    simp only [hcallee] at hhandled
    exact hhandled.call
  obtain ⟨u', sub, site', ⟨setup', entry', hprepare'', hlook'⟩, hsub, -, hsite', -, -, hdelivered⟩ :=
    h.returned hi hb hflow haddress' hjsr hbefore' hcallee
  obtain ⟨rfl, rfl⟩ := Prod.mk.inj (Except.ok.inj (hprepare.symm.trans hprepare''))
  obtain rfl := Option.some.inj (hsite.symm.trans hsite')
  obtain ⟨index', i', c, w', hi', hposition, hlook'', hbelow'⟩ :=
    Inference.looks_of_delivered hp hfits hanalyse h.idle hdelivered
  rw [h.body_eq] at hi hjsr
  exact ⟨index', i', c, _, hi', hposition, .returns (hwalks.again hlook' hbelow) hi hflow haddress' hlook' hsub
    (Inference.passes_analyse hp hanalyse) hsite hentry (hp.tiles.startingAt?_eq_some_iff.mpr ⟨rfl, jsrIndex, hjsr⟩) hi'
    hposition hlook'' hbelow'⟩

/-- A path through an accepted method starts where the method does. -/
theorem Settled.walks_start {method : Method} {v : Verified} {setup : Setup} {s : Session} {entry : Frame}
    (h : Settled method v setup s) (hprepare : Inference.prepare false method = .ok (setup, entry)) :
    ∃ a, Inference.Walks setup entry [] 0 a a := by
  obtain ⟨entry', hexplores, hfits, hprepare', hanalyse⟩ := h.explores
  obtain ⟨-, rfl⟩ := Prod.mk.inj (Except.ok.inj (hprepare.symm.trans hprepare'))
  obtain ⟨index, i, a, u, hi, hposition, hlook, hbelow⟩ :=
    Inference.looks_of_delivered h.prepared hfits hanalyse h.idle hexplores.entered
  obtain ⟨first, hfirst⟩ := setup.body.exists_get? 0 h.nonempty
  obtain rfl := h.prepared.tiles.index_eq hi hfirst (hposition.trans (h.prepared.tiles.position_zero hfirst).symm)
  exact ⟨a, .enter hlook hbelow⟩

/-! ## One object for one type -/

/-- How many slots of a frame hold an object of the `new` at a position. -/
def Frame.countMade (p : Nat) (f : Frame) : Nat := (f.locals ++ f.stack).countP (·.isMadeAt p)

theorem Frame.Lacks.countMade {p : Nat} {f : Frame} (h : f.Lacks p) : f.countMade p = 0 := by
  refine List.countP_eq_zero.mpr fun t ht => ?_
  simp [h t ht]

/-- What `new` does: an object named by its place comes onto the stack, and nothing else changes. -/
theorem Frame.after_newObject {a g : Frame} {c : UInt16} {context : ExecutionContext}
    (h : a.after (.newObject c) context = .ok g) :
    ∃ name, g = { a with stack := .uninitialized context.position name :: a.stack } := by
  obtain ⟨⟨u, hrun⟩, -⟩ := after_eq_ok.mp h
  obtain ⟨type, f, hlift, hrest⟩ := state_bind_eq_ok.mp hrun
  obtain ⟨_, -, heq⟩ := state_lift_eq_ok.mp hlift
  obtain ⟨-, rfl⟩ := Prod.mk.inj heq
  cases type with
  | object name => exact ⟨name, (Prod.mk.inj (Except.ok.inj hrest)).2.symm⟩
  | array dimensions element => exact absurd hrest (Exec.fails_throw _ _ _)

theorem Frame.Lacks.countMade_newObject {a g : Frame} {c : UInt16} {context : ExecutionContext}
    (h : a.Lacks context.position) (hafter : a.after (.newObject c) context = .ok g) :
    g.countMade context.position = 1 := by
  obtain ⟨name, rfl⟩ := after_newObject hafter
  have hnone : (a.locals.countP (·.isMadeAt context.position)) + (a.stack.countP (·.isMadeAt context.position)) = 0 := by
    rw [← List.countP_append]
    exact h.countMade
  change (a.locals ++ .uninitialized context.position name :: a.stack).countP (·.isMadeAt context.position) = 1
  rw [List.countP_append, List.countP_cons_of_pos (by simp [VType.isMadeAt])]
  omega

theorem Inference.tells_of_prepare {recording : Bool} {method : Method} {setup : Setup} {entry : Frame}
    {pool : ConstantPool} (hprepare : prepare recording method = .ok (setup, entry))
    (hlength : method.code.bytes.length < 2 ^ 64) (hpool : method.constants = pool.resolver) :
    Tells setup method.code.bytes entry := by
  obtain ⟨rfl, hp, -, hhandlers, hentry⟩ := prepare_spec hlength hprepare
  refine ⟨hp, Frame.fits_entry hentry, ?_, ?_, (regular_of_prepare hprepare).2, Frame.lacks_entry hentry⟩
  · intro handler hmem
    obtain ⟨e, -, hresolve⟩ := (mem_of_mapM hhandlers).mp hmem
    obtain ⟨-, -, -, -, type, hcatches, rfl⟩ := resolveHandler_eq_ok.mp hresolve
    exact hcatches.isInitialized
  · rw [hpool]
    exact pool.givesProper_resolver

/-- **A type of an object without a constructor stands for the newest object of its `new`.**  In the analysis of a method,
no `new` is looked at with a frame that has an object of its own; right after it there is one such slot.  On every path
along the frames that the analysis looks with, with its objects numbered as they are made, the object that a slot is known
to hold by the position of a `new` is the newest one from there, and every instruction, a call of a constructor among them,
treats the numbered objects as it treats the types.  Through an accepted method there are all paths.  Constants come from
a pool, the only source of them that there is. -/
theorem uninitialized_newest {recording : Bool} {method : Method} {setup : Setup} {entry : Frame} {pool : ConstantPool}
    (hprepare : Inference.prepare recording method = .ok (setup, entry)) (hlength : method.code.bytes.length < 2 ^ 64)
    (hpool : method.constants = pool.resolver) :
    (∀ s index a i c, Inference.Passes setup entry (some (index, a)) s → setup.body.get? index = some i →
      i.flow = .plain (.newObject c) → a.countMade i.position = 0 ∧
        ∀ g, a.after (.newObject c) (setup.context i.position) = .ok g → g.countMade i.position = 1) ∧
    (∀ made index a f, Inference.Walks setup entry made index a f → f.Numbered (IsNewest made) a ∧
      ∀ i exit target g, setup.body.get? index = some i → setup.Exits i i.position a exit target g →
        ∃ f', setup.Exits i made.length f exit target f' ∧ f'.Numbered (IsNewest (exit.made i made)) g) ∧
    ∀ v, recording = false → method.verify = .ok v → (∃ a, Inference.Walks setup entry [] 0 a a) ∧
      ∀ made index a f i, Inference.Walks setup entry made index a f → setup.body.get? index = some i →
        (∀ exit target f', setup.Exits i made.length f exit target f' → ∃ index' i' b,
          setup.body.get? index' = some i' ∧ i'.position = target ∧
          Inference.Walks setup entry (exit.made i made) index' b (f'.carried b)) ∧
        ∀ slot callee s jsrIndex jsr before, i.flow = .ret slot → f.locals[slot.toNat]? = some (.returnAddress callee) →
          Inference.Passes setup entry (some (jsrIndex, before)) s → setup.body.get? jsrIndex = some jsr →
          jsr.flow = .jsr callee → ∃ index' i' b f', setup.body.get? index' = some i' ∧ i'.position = jsr.next ∧
            Inference.Walks setup entry made index' b f' := by
  have ht := Inference.tells_of_prepare hprepare hlength hpool
  refine ⟨?_, ?_, ?_⟩
  · intro s index a i c hlook hi hflow
    have hlacks := hlook.lacks ht.prepared ht.fits ht.caught ht.load ht.regular (ht.lacks _) hi hflow
    exact ⟨hlacks.countMade, fun g hafter => hlacks.countMade_newObject hafter⟩
  · intro made index a f hwalks
    have hnumbered := hwalks.numbered ht
    refine ⟨hnumbered, ?_⟩
    intro i exit target g hi hexit
    obtain ⟨s, hlook⟩ := hwalks.looks
    exact ht.exits hlook hi hnumbered hexit
  · rintro v rfl hverify
    obtain ⟨setup', s, hsettled⟩ := Method.settled hlength hverify
    obtain ⟨entry', -, -, hprepare', -⟩ := hsettled.explores
    obtain ⟨rfl, rfl⟩ := Prod.mk.inj (Except.ok.inj (hprepare.symm.trans hprepare'))
    refine ⟨hsettled.walks_start hprepare, ?_⟩
    intro made index a f i hwalks hi
    refine ⟨fun exit target f' hexit => hsettled.walks_exits hprepare hwalks hi hexit, ?_⟩
    intro slot callee s jsrIndex jsr before hflow haddress hcall hjsr hcallee
    have haddress' := (hwalks.numbered ht).getElem? haddress (by simp)
    exact hsettled.walks_returns hprepare hwalks hi hflow haddress' hcall hjsr hcallee

/-! A loop that makes an object in every pass and keeps it in a local:

    0 new 2;  3 astore_0;  4 goto 0
-/

namespace Remaking

def method : Method :=
  { Method.bare ⟨[], none⟩ 1 1 [0xbb, 0x00, 0x02, 0x4b, 0xa7, 0xff, 0xfc] with
    constants := (⟨.ofList 1 [.utf8 "java/lang/Object", .classInfo 1]⟩ : ConstantPool).resolver }

/-- Before the `new`. -/
def before : Frame := ⟨[.top], [], []⟩

/-- After the `new`, with the object under a name. -/
def made (n : Nat) : Frame := ⟨[.top], [.uninitialized n .object], []⟩

/-- After the store, with the object under a name. -/
def stored (n : Nat) : Frame := ⟨[.uninitialized n .object], [], []⟩

/-- In the second pass the local is not known to hold the first object any more, and the type on the stack stands for the
second one. -/
theorem made_newest :
    ∃ setup entry, Inference.prepare false method = .ok (setup, entry) ∧
      Inference.Walks setup entry [0, 0] 1 (made 0) (made 1) ∧ (made 1).Numbered (IsNewest [0, 0]) (made 0) := by
  have htest : (Inference.prepare false method).toOption.any (fun prepared =>
      ((Session.start prepared.1.body.codeLength prepared.1.method.code.maxLocals.toNat).mergeInto
        prepared.1 0 prepared.2).toOption.any fun first => (first.states.get? 0).any fun st =>
      (prepared.1.body.get? 0).any fun i₀ => (prepared.1.body.get? 1).any fun i₁ => (prepared.1.body.get? 2).any fun i₂ =>
      (Session.interpretOne { first with worklist := [], states := first.states.insert 0 { st with visited := true } }
        prepared.1 i₀ st.frame).toOption.any fun second =>
      (second.1.interpretOne prepared.1 i₁ (made 0)).toOption.any fun third =>
        (prepared.2 = before ∧ first.worklist = [0] ∧ st.frame = before ∧ prepared.1.body.indexOf? 0 = some 0) ∧
        (second.2 = some (made 0) ∧ second.1.isMerged prepared.1 i₁.position = false ∧
          third.2 = some (stored 0) ∧ third.1.isMerged prepared.1 i₂.position = false) ∧
        (i₀.position = 0 ∧ i₀.flow = .plain (.newObject 2) ∧ i₁.position = i₀.next ∧
          i₁.flow = .plain (.store .reference 0) ∧ i₂.position = i₁.next ∧ i₂.flow = .branch .goto 0) ∧
        i₀.onward (prepared.1.context 0) before = some (made 0) ∧
        i₀.onward (prepared.1.context 1) before = some (made 1) ∧
        i₁.onward (prepared.1.context i₁.position) (made 0) = some (stored 0) ∧
        i₁.onward (prepared.1.context 1) (made 0) = some (stored 0)) = true := by
    decide +kernel
  simp only [Option.any_eq_true, decide_eq_true_eq, toOption_eq_some] at htest
  obtain ⟨⟨setup, entry⟩, hprepare, first, hfirst, ⟨position, frame, visited⟩, hst, i₀, hi₀, i₁, hi₁, i₂, hi₂,
    ⟨t₁, next₁⟩, hone₁, ⟨t₂, next₂⟩, hone₂, ⟨hentry, hwork, hframe, hindex⟩, ⟨hnext₁, hmerged₁, hnext₂, hmerged₂⟩,
    ⟨hposition₀, hflow₀, hposition₁, hflow₁, hposition₂, hflow₂⟩, hmade, hmade', hstored, hstored'⟩ := htest
  dsimp only at hframe hnext₁ hnext₂ hentry
  subst hframe hnext₁ hnext₂ hentry
  have hlook₀ := Inference.Passes.state (.enter hfirst) hwork hst hindex
  have hlook₁ := hlook₀.on hi₀ hone₁ hi₁ hmerged₁
  have hlook₂ := hlook₁.on hi₁ hone₂ hi₂ hmerged₂
  have hnew : Exit.falls.made i₀ [] = [0] := by simp [Exit.made, hflow₀, Op.made, hposition₀]
  have hkept : Exit.falls.made i₁ [0] = [0] := by simp [Exit.made, hflow₁, Op.made]
  have hnew' : Exit.falls.made i₀ [0] = [0, 0] := by simp [Exit.made, hflow₀, Op.made, hposition₀]
  have hexit : setup.Exits i₀ i₀.position before .falls i₀.next (made 0) := .falls (hposition₀ ▸ hmade)
  -- the first pass
  have hfirst₁ : Inference.Walks setup before [0] 1 (made 0) (made 0) :=
    hnew ▸ (Inference.Walks.enter hlook₀ (.refl _)).exits hi₀ hexit (.falls hmade) hi₁ hposition₁ hlook₁ (.refl _)
  have hfirst₂ : Inference.Walks setup before [0] 2 (stored 0) (stored 0) :=
    hkept ▸ hfirst₁.exits hi₁ (.falls hstored) (.falls hstored') hi₂ hposition₂ hlook₂ (.refl _)
  -- back at the start less is known of the local
  have hbelow : (stored 0).Below before := ⟨⟨.cons (VType.le_top _) .nil, .refl _⟩, .nil⟩
  have hsecond : Inference.Walks setup before [0] 0 before before :=
    hfirst₂.exits hi₂ (.jumps hflow₂ rfl) (.jumps hflow₂ rfl) hi₀ hposition₀ hlook₀ hbelow
  have hsecond₁ : Inference.Walks setup before [0, 0] 1 (made 0) (made 1) :=
    hnew' ▸ hsecond.exits hi₀ hexit (.falls hmade') hi₁ hposition₁ hlook₁ (.refl _)
  obtain ⟨-, hnewest, -⟩ := uninitialized_newest hprepare (by decide) rfl
  exact ⟨setup, before, hprepare, hsecond₁, (hnewest _ _ _ _ hsecond₁).1⟩

end Remaking

end Bytecode
