import Bytecode.Proofs.Effects
import Bytecode.Proofs.TypeOrder

/-!
# Operations on related frames

Two frames are related when their stacks and locals are, value by value.  As long as related values pass the same
checks, every operation that goes through on one of the frames goes through on the other, with related results.

* `Exec.Relates`: what is asked of relations between values on the stack and in the locals;
* `Exec.Follows`: computations that give related results on related frames;
* `Exec.Relates.run`: operations on related frames.
-/

namespace Bytecode

/-- The frames agree up to the relation `S` between stack values and the relation `L` between locals. -/
structure Frame.Related (S L : VType → VType → Prop) (f f' : Frame) : Prop where
  stack : List.Forall₂ S f.stack f'.stack
  locals : List.Forall₂ L f.locals f'.locals
  paired : Exec.Paired f.locals
  paired' : Exec.Paired f'.locals

namespace Exec

/-- Relations between values on the stack and in the locals, under which one value can take the place of the
other. -/
structure Relates (S L : VType → VType → Prop) : Prop where
  width : ∀ {a b}, S a b → width a = width b
  numeric : ∀ {a n}, S a (.ofNumeric n) → a = .ofNumeric n
  initialized : ∀ {a b}, S a b → b.isInitialized = true → a ≤ b
  this : ∀ {a}, S a .uninitializedThis → a = .uninitializedThis
  uninitialized : ∀ {a position name}, S a (.uninitialized position name) →
    ∃ position', a = .uninitialized position' name
  address : ∀ {a entry}, S a (.returnAddress entry) → a = .returnAddress entry
  /-- Initialized objects and numbers are related to what is below them. -/
  value : ∀ {a b}, a ≤ b → b.IsProper → S a b
  load : ∀ {a b}, L a b → b.isReference = true → S a b
  loadNumeric : ∀ {a n}, L a (.ofNumeric n) → a = .ofNumeric n
  store : ∀ {a b}, S a b → L a b
  top : L .top .top
  clear : ∀ {a b}, L a b → Bytecode.width a = 2 → Bytecode.width b ≠ 2 → L .top b
  replace : ∀ {a b}, S a b → b.isUninitialized = true → ∀ name c d,
    (S c d → S (if c = a then .ofClass name else c) (if d = b then .ofClass name else d)) ∧
      (L c d → L (if c = a then .ofClass name else c) (if d = b then .ofClass name else d))

/-- Where `y` goes through on a frame, `x` goes through on every related frame, with related results. -/
def Follows (S L : VType → VType → Prop) {α β : Type} (A : α → β → Prop) (x : Exec α) (y : Exec β) : Prop :=
  ∀ (f f' : Frame) (b : β) (g' : Frame), f.Related S L f' → y f' = .ok (b, g') →
    ∃ a g, x f = .ok (a, g) ∧ A a b ∧ g.Related S L g'

/-- A computation that never goes through. -/
def Fails {α : Type} (x : Exec α) : Prop := ∀ (f : Frame) (r : α × Frame), x f ≠ .ok r

theorem fails_throw {α : Type} (fault : VerifyFault) : Fails (throw fault : Exec α) := by
  intro f r
  simp

theorem fails_throw_bind {α β : Type} (fault : VerifyFault) (k : α → Exec β) : Fails ((throw fault : Exec α) >>= k) := by
  intro f r h
  obtain ⟨a, g, hthrow, -⟩ := state_bind_eq_ok.mp h
  simp at hthrow

theorem fails_incompatible {α : Type} (expected : Expectation) (found : VType) :
    Fails (incompatible expected found : Exec α) :=
  fails_throw _

theorem fails_incompatible_bind {α β : Type} (expected : Expectation) (found : VType) (k : α → Exec β) :
    Fails ((incompatible expected found : Exec α) >>= k) :=
  fails_throw_bind _ k

/-! ## Combinators -/

section Combinators

variable {S L : VType → VType → Prop} {α β γ δ : Type} {A : α → β → Prop} {B : γ → δ → Prop}

theorem Follows.pure {a : α} {b : β} (hab : A a b) : Follows S L A (Pure.pure a) (Pure.pure b) := by
  intro f f' b' g' hrel h
  obtain ⟨rfl, rfl⟩ := Prod.mk.inj (state_pure_eq_ok.mp h)
  exact ⟨a, f, rfl, hab, hrel⟩

theorem Follows.bind {x : Exec α} {y : Exec β} {k : α → Exec γ} {m : β → Exec δ} (hxy : Follows S L A x y)
    (hkm : ∀ a b, A a b → Follows S L B (k a) (m b)) : Follows S L B (x >>= k) (y >>= m) := by
  intro f f' d h' hrel h
  obtain ⟨b, g', hy, hm⟩ := state_bind_eq_ok.mp h
  obtain ⟨a, g, hx, hab, hrel'⟩ := hxy f f' b g' hrel hy
  obtain ⟨c, h, hk, hcd, hrel''⟩ := hkm a b hab g g' d h' hrel' hm
  exact ⟨c, h, state_bind_eq_ok.mpr ⟨a, g, hx, hk⟩, hcd, hrel''⟩

theorem Follows.of_fails {x : Exec α} {y : Exec β} (hy : Fails y) : Follows S L A x y := by
  intro f f' b g' _ h
  exact absurd h (hy f' (b, g'))

/-- A check that the one side passes whenever the other does. -/
theorem Follows.check {p p' : Prop} [Decidable p] [Decidable p'] {x z : Exec α} {y z' : Exec β} (hp : ¬ p' → ¬ p)
    (hz : Fails z') (hxy : Follows S L A x y) : Follows S L A (if p then z else x) (if p' then z' else y) := by
  by_cases hp' : p'
  · rw [if_pos hp']
    exact .of_fails hz
  · rw [if_neg hp', if_neg (hp hp')]
    exact hxy

/-- A case distinction that both sides make in the same way. -/
theorem Follows.ite {p p' : Prop} [Decidable p] [Decidable p'] {x z : Exec α} {y z' : Exec β} (hp : p ↔ p')
    (hz : p' → Follows S L A z z') (hxy : ¬ p' → Follows S L A x y) :
    Follows S L A (if p then z else x) (if p' then z' else y) := by
  by_cases hp' : p'
  · rw [if_pos hp', if_pos (hp.mpr hp')]
    exact hz hp'
  · rw [if_neg hp', if_neg (mt hp.mp hp')]
    exact hxy hp'

/-- What does not touch the frame gives the same on both sides. -/
theorem Follows.lift (x : Except VerifyFault α) : Follows S L (fun a b => a = b ∧ x = .ok b) (liftM x) (liftM x) := by
  intro f f' b g' hrel h
  obtain ⟨a, hx, heq⟩ := state_lift_eq_ok.mp h
  obtain ⟨rfl, rfl⟩ := Prod.mk.inj heq
  exact ⟨b, f, state_lift_eq_ok.mpr ⟨b, hx, rfl⟩, ⟨rfl, hx⟩, hrel⟩

/-- Changes that give nothing but the frame. -/
theorem Follows.snd {x y : Exec Unit} (hxy : Follows S L (fun _ _ => True) x y) {f f' g' : Frame}
    (hrel : f.Related S L f') (h : Prod.snd <$> y.run f' = .ok g') :
    ∃ g, Prod.snd <$> x.run f = .ok g ∧ g.Related S L g' := by
  obtain ⟨⟨u, _⟩, hrun, rfl⟩ := map_eq_ok.mp h
  obtain ⟨_, g, hrun', -, hrelated⟩ := hxy f f' u _ hrel hrun
  exact ⟨g, map_eq_ok.mpr ⟨_, hrun', rfl⟩, hrelated⟩

theorem Follows.forM {x y : γ → Exec PUnit} (hxy : ∀ c, Follows S L (fun _ _ => True) (x c) (y c)) (cs : List γ) :
    Follows S L (fun _ _ => True) (cs.forM x) (cs.forM y) := by
  induction cs with
  | nil => exact .pure trivial
  | cons c cs ih => exact .bind (hxy c) fun _ _ _ => ih

theorem Follows.pop : Follows S L S Exec.pop Exec.pop := by
  intro f f' t' g' hrel h
  obtain ⟨hstack, hg⟩ := pop_eq_ok.mp h
  have hrelStack := hrel.stack
  rw [hstack] at hrelStack
  obtain ⟨t, rest, ht, hrest, hf⟩ := List.forall₂_cons_right_iff.mp hrelStack
  refine ⟨t, { f with stack := rest }, pop_eq_ok.mpr ⟨hf, rfl⟩, ht, hrest, ?_, hrel.paired, ?_⟩
  · rw [hg]
    exact hrel.locals
  · rw [hg]
    exact hrel.paired'

theorem Follows.push {t t' : VType} (ht : S t t') : Follows S L (fun _ _ => True) (Exec.push t) (Exec.push t') := by
  intro f f' u g' hrel h
  obtain rfl := push_eq_ok.mp h
  exact ⟨(), _, push_eq_ok.mpr rfl, trivial, .cons ht hrel.stack, hrel.locals, hrel.paired, hrel.paired'⟩

theorem Follows.pushAll {ts ts' : List VType} (hts : List.Forall₂ S ts ts') :
    Follows S L (fun _ _ => True) (Exec.pushAll ts) (Exec.pushAll ts') := by
  intro f f' u g' hrel h
  obtain ⟨-, rfl⟩ := Prod.mk.inj (Except.ok.inj h)
  exact ⟨(), _, rfl, trivial, List.rel_append (List.rel_reverse hts) hrel.stack, hrel.locals, hrel.paired, hrel.paired'⟩

end Combinators

/-! ## Arrays -/

theorem arrayElementType_object {type : RefType} {element : ArrayElement} {t : VType} :
    arrayElementType (.object type) element = .ok t ↔
      ∃ component, type.elementType? = some component ∧ fits component element = true ∧ t = .ofField component := by
  unfold arrayElementType
  cases hcomponent : type.elementType? with
  | none => simp [hcomponent]
  | some component =>
    simp only [hcomponent, Option.some_inj]
    by_cases hfits : fits component element = true
    · rw [if_pos hfits]
      constructor
      · intro h
        exact ⟨component, rfl, hfits, (Except.ok.inj h).symm⟩
      · rintro ⟨_, rfl, -, rfl⟩
        rfl
    · rw [if_neg hfits]
      constructor
      · intro h
        simp at h
      · rintro ⟨_, rfl, hfits', -⟩
        exact absurd hfits' hfits

theorem nullElement_le {component : FieldType} {element : ArrayElement} (h : fits component element = true) :
    nullElement element ≤ .ofField component := by
  cases component with
  | base base =>
    have heq : nullElement element = .ofField (.base base) := by
      revert h
      cases base <;> cases element <;> simp [fits, nullElement, VType.ofField]
    exact le_of_eq heq
  | ref type =>
    cases element with
    | reference => exact .null type
    | _ => simp [fits] at h

theorem isProper_nullElement (element : ArrayElement) : (nullElement element).IsProper := by
  cases element with
  | reference => exact Or.inl rfl
  | long => exact Or.inr ⟨.long, rfl⟩
  | float => exact Or.inr ⟨.float, rfl⟩
  | double => exact Or.inr ⟨.double, rfl⟩
  | _ => exact Or.inr ⟨.int, rfl⟩

/-- Where elements of an array can be used, so can those of `null`. -/
theorem arrayElementType_mono {element : ArrayElement} {a a' t' : VType} (ha : a ≤ a')
    (h : arrayElementType a' element = .ok t') :
    ∃ t, arrayElementType a element = .ok t ∧ t ≤ t' ∧ t'.IsProper := by
  cases ha with
  | refl =>
    refine ⟨t', h, le_refl t', ?_⟩
    cases a with
    | null =>
      obtain rfl := Except.ok.inj h
      exact isProper_nullElement element
    | object type =>
      obtain ⟨component, -, -, rfl⟩ := arrayElementType_object.mp h
      exact VType.isProper_ofField component
    | _ => simp [arrayElementType] at h
  | top => simp [arrayElementType] at h
  | null type =>
    obtain ⟨component, -, hfits, rfl⟩ := arrayElementType_object.mp h
    exact ⟨nullElement element, rfl, nullElement_le hfits, VType.isProper_ofField component⟩
  | object type =>
    obtain ⟨component, hcomponent, -⟩ := arrayElementType_object.mp h
    simp [RefType.elementType?] at hcomponent

theorem isInitialized_of_arrayElementType {element : ArrayElement} {a t : VType} (h : arrayElementType a element = .ok t) :
    a.isInitialized = true := by
  cases a with
  | null => rfl
  | object type => rfl
  | _ => simp [arrayElementType] at h

theorem storable_of_isInitialized {t : VType} (ht : t.isInitialized = true) (value : VType) :
    storable t value = value.isInitialized := by
  cases t with
  | null => rfl
  | object type => rfl
  | _ => simp [VType.isInitialized] at ht

theorem storable_ofNumeric (n : NumericType) (value : VType) :
    storable (.ofNumeric n) value = decide (VType.ofNumeric n = value) := by
  cases n <;> rfl

/-! ## Storing references -/

/-- Before a return address is stored, the local is looked at. -/
theorem checkAddress_eq_ok {f g : Frame} {index : UInt16} {entry : Nat} {x : Exec Unit} {u : Unit} :
    (do
      match (← get).locals[index.toNat]? with
      | some (.returnAddress old) => if old ≠ entry then throw .subroutineMerge
      | _ => pure ()
      x : Exec Unit) f = .ok (u, g) ↔
    (∀ old, f.locals[index.toNat]? = some (.returnAddress old) → old = entry) ∧ x f = .ok (u, g) := by
  have hget : ∀ {k : Frame → Exec Unit}, (get >>= k) f = k f f := fun {k} => rfl
  rw [hget]
  cases hlocal : f.locals[index.toNat]? with
  | none => simp
  | some t =>
    cases t with
    | returnAddress old =>
      by_cases hsame : old = entry
      · simp [hsame]
      · simp only [ne_eq, hsame, not_false_eq_true, if_true]
        constructor
        · intro h
          exact absurd h (fails_throw_bind _ _ f _)
        · rintro ⟨h, -⟩
          exact absurd (h old rfl) hsame
    | _ => simp

/-- What storing a reference or a return address asks for, and does. -/
theorem storeReference_eq_ok {f g : Frame} {index : UInt16} {context : ExecutionContext} {u : Unit} :
    (Op.store .reference index).run context f = .ok (u, g) ↔ ∃ t rest, f.stack = t :: rest ∧
      (t.isReference = true ∨ ∃ entry, t = .returnAddress entry ∧
        ∀ old, f.locals[index.toNat]? = some (.returnAddress old) → old = entry) ∧
      setLocal index t { f with stack := rest } = .ok (u, g) := by
  unfold Op.run
  rw [pop_bind_eq_ok]
  apply exists_congr
  intro t
  apply exists_congr
  intro rest
  apply and_congr_right
  intro hstack
  cases t with
  | returnAddress entry =>
    have hcheck := @checkAddress_eq_ok { f with stack := rest } g index entry (setLocal index (.returnAddress entry)) u
    refine hcheck.trans (and_congr_left fun _ => ?_)
    constructor
    · intro h
      exact Or.inr ⟨entry, rfl, h⟩
    · rintro (h | ⟨_, heq, h⟩)
      · simp [VType.isReference] at h
      · obtain rfl := VType.returnAddress.inj heq
        exact h
  | null => simp [VType.isReference]
  | uninitializedThis => simp [VType.isReference]
  | uninitialized position name => simp [VType.isReference]
  | object type => simp [VType.isReference]
  | _ =>
    simp only [VType.isReference, Bool.false_eq_true, reduceCtorEq, false_and, exists_false, or_self, iff_false]
    exact fails_incompatible_bind _ _ _ _ _

/-! ## Locals -/

theorem forall₂_set {R : VType → VType → Prop} {ts us : List VType} {t u : VType} (h : List.Forall₂ R ts us) (htu : R t u)
    (k : Nat) : List.Forall₂ R (ts.set k t) (us.set k u) := by
  induction h generalizing k with
  | nil => exact .nil
  | cons hab h ih =>
    cases k with
    | zero => exact .cons htu h
    | succ k => exact .cons hab (ih k)

namespace Relates

variable {S L : VType → VType → Prop} (hR : Relates S L)

include hR

theorem forall₂_clear {locals locals' : List VType} (h : List.Forall₂ L locals locals') (slot : Nat) :
    List.Forall₂ L (clearIfWide locals slot slot) (clearIfWide locals' slot slot) := by
  unfold clearIfWide
  cases hb : locals'[slot]? with
  | none =>
    have ha : locals[slot]? = none := by
      rw [List.getElem?_eq_none_iff] at hb ⊢
      rw [h.length_eq]
      exact hb
    simp only [ha]
    exact h
  | some b =>
    obtain ⟨a, ha, hab⟩ := forall₂_getElem? h hb
    simp only [ha]
    by_cases hwide : Bytecode.width b = 2
    · -- a value of two words is related to itself only
      have heq : a = b := by
        cases b with
        | long => exact hR.loadNumeric (n := .long) hab
        | double => exact hR.loadNumeric (n := .double) hab
        | _ => simp [Bytecode.width] at hwide
      rw [heq, if_pos hwide, if_pos hwide]
      exact forall₂_set h hR.top slot
    · rw [if_neg hwide]
      split
      · rename_i hwide'
        obtain ⟨hlt, hget⟩ := List.getElem?_eq_some_iff.mp hb
        have hset := forall₂_set h (hR.clear hab hwide' hwide) slot
        rwa [← hget, List.set_getElem_self] at hset
      · exact h

theorem forall₂_assigned {locals locals' : List VType} {t t' : VType} (h : List.Forall₂ L locals locals')
    (hpaired : Paired locals) (hpaired' : Paired locals') (ht : S t t') (index : Nat) :
    List.Forall₂ L (assigned locals index t) (assigned locals' index t') := by
  have hcleared : List.Forall₂ L (clearedUpTo locals index) (clearedUpTo locals' index) := by
    unfold clearedUpTo
    split
    · exact hR.forall₂_clear h _
    · exact h
  rw [hpaired.assigned_eq, hpaired'.assigned_eq, hR.width ht]
  apply forall₂_set _ (hR.store ht)
  split
  · exact forall₂_set hcleared hR.top _
  · exact hcleared

/-! ## Elementary changes -/

theorem popWord : Follows S L S Exec.popWord Exec.popWord := by
  unfold Exec.popWord
  refine .bind .pop fun t t' ht => .check ?_ (fails_throw_bind _ _) (.pure ht)
  rw [hR.width ht]
  exact id

theorem popNumeric (type : NumericType) :
    Follows S L (fun _ _ => True) (popExactly (.ofNumeric type)) (popExactly (.ofNumeric type)) := by
  unfold popExactly
  refine .bind .pop fun t t' ht => .check ?_ (fails_incompatible _ _) (.pure trivial)
  intro hsame
  obtain rfl := not_not.mp hsame
  exact not_not.mpr (hR.numeric ht)

theorem popInt : Follows S L (fun _ _ => True) (popExactly .int) (popExactly .int) := hR.popNumeric .int

theorem reference {a b : VType} (h : S a b) (hb : b.isReference = true) : a.isReference = true := by
  cases b with
  | null =>
    cases hR.initialized h rfl with
    | refl => rfl
  | object type =>
    cases hR.initialized h rfl with
    | refl => rfl
    | null => rfl
    | object => rfl
  | uninitializedThis => rw [hR.this h]; rfl
  | uninitialized position name =>
    obtain ⟨position', rfl⟩ := hR.uninitialized h
    rfl
  | _ => simp [VType.isReference] at hb

theorem isInitialized {a b : VType} (h : S a b) (hb : b.isInitialized = true) : a.isInitialized = true :=
  VType.isInitialized_of_le (hR.initialized h hb) hb

/-- What can be passed where a declared type is asked for. -/
theorem assignable {a b : VType} {type : FieldType} (h : S a b) (hb : b.assignable (.ofField type) = true) :
    a.assignable (.ofField type) = true := by
  have hself : ∀ t : VType, t.assignable t = true := by
    intro t
    cases t <;> simp [VType.assignable]
  cases type with
  | base base =>
    obtain ⟨n, hn⟩ : ∃ n, VType.ofField (.base base) = .ofNumeric n := VType.exists_ofNumeric base
    rw [hn] at hb ⊢
    obtain rfl : b = .ofNumeric n := by
      cases n <;> cases b <;> simp [VType.ofNumeric, VType.assignable] at hb ⊢
    rw [hR.numeric h]
    exact hself _
  | ref type =>
    have hinit : b.isInitialized = true := by
      cases b <;> simp [VType.ofField, VType.assignable, VType.isInitialized] at hb ⊢
    have hinit' := hR.isInitialized h hinit
    cases a <;> simp [VType.ofField, VType.assignable, VType.isInitialized] at hinit' ⊢

theorem popReference : Follows S L (fun _ _ => True) Exec.popReference Exec.popReference := by
  unfold Exec.popReference
  refine .bind .pop fun t t' ht => .check ?_ (fails_incompatible _ _) (.pure trivial)
  simp only [Bool.not_eq_true', Bool.not_eq_false]
  exact hR.reference ht

theorem popInitialized (expected : Expectation) :
    Follows S L (fun _ _ => True) (Exec.popInitialized expected) (Exec.popInitialized expected) := by
  unfold Exec.popInitialized
  refine .bind .pop fun t t' ht => .check ?_ (fails_incompatible _ _) (.pure trivial)
  simp only [Bool.not_eq_true', Bool.not_eq_false]
  exact hR.isInitialized ht

theorem popAssignable (type : FieldType) :
    Follows S L (fun _ _ => True) (Exec.popAssignable (.ofField type)) (Exec.popAssignable (.ofField type)) := by
  unfold Exec.popAssignable
  refine .bind .pop fun t t' ht => .check ?_ (fails_incompatible _ _) (.pure trivial)
  simp only [Bool.not_eq_true', Bool.not_eq_false]
  exact hR.assignable ht

theorem popArguments (parameters : List FieldType) :
    Follows S L (fun _ _ => True) (Exec.popArguments parameters) (Exec.popArguments parameters) := by
  unfold Exec.popArguments
  refine .forM (fun parameter => .bind .pop fun t t' ht => .check ?_ (fails_throw _) (.pure trivial)) _
  simp only [Bool.not_eq_true', Bool.not_eq_false]
  exact hR.assignable ht

theorem pushField (type : FieldType) :
    Follows S L (fun _ _ => True) (Exec.push (.ofField type)) (Exec.push (.ofField type)) := by
  exact .push (hR.value (le_refl _) (VType.isProper_ofField type))

theorem pushNumeric (type : NumericType) :
    Follows S L (fun _ _ => True) (Exec.push (.ofNumeric type)) (Exec.push (.ofNumeric type)) :=
  .push (hR.value (le_refl _) (Or.inr ⟨type, rfl⟩))

theorem pushInt : Follows S L (fun _ _ => True) (Exec.push .int) (Exec.push .int) := hR.pushNumeric .int

theorem pushObject (type : RefType) :
    Follows S L (fun _ _ => True) (Exec.push (.object type)) (Exec.push (.object type)) :=
  hR.pushField (.ref type)

theorem pushResult (returnType : Option FieldType) :
    Follows S L (fun _ _ => True) (Exec.pushResult returnType) (Exec.pushResult returnType) := by
  unfold Exec.pushResult
  cases returnType with
  | none => exact .pure trivial
  | some type => exact hR.pushField type

omit hR in
theorem getLocal (index : UInt16) : Follows S L L (Exec.getLocal index) (Exec.getLocal index) := by
  intro f f' t' g' hrel h
  obtain ⟨hlocal, rfl⟩ := getLocal_eq_ok.mp h
  obtain ⟨t, ht, hrelated⟩ := forall₂_getElem? hrel.locals hlocal
  exact ⟨t, f, getLocal_eq_ok.mpr ⟨ht, rfl⟩, hrelated, hrel⟩

theorem checkNumeric (index : UInt16) (type : NumericType) :
    Follows S L (fun _ _ => True) (checkLocal index (.ofNumeric type)) (checkLocal index (.ofNumeric type)) := by
  unfold checkLocal
  refine .bind (getLocal index) fun t t' ht => .check ?_ (fails_incompatible _ _) (.pure trivial)
  intro hsame
  obtain rfl := not_not.mp hsame
  exact not_not.mpr (hR.loadNumeric ht)

theorem setLocal (index : UInt16) {t t' : VType} (ht : S t t') :
    Follows S L (fun _ _ => True) (Exec.setLocal index t) (Exec.setLocal index t') := by
  intro f f' u g' hrel h
  obtain ⟨hfits', rfl⟩ := setLocal_eq_ok.mp h
  have hfits : index.toNat + Bytecode.width t ≤ f.locals.length := by
    rw [hR.width ht, hrel.locals.length_eq]
    exact hfits'
  exact ⟨(), _, setLocal_eq_ok.mpr ⟨hfits, rfl⟩, trivial, hrel.stack,
    hR.forall₂_assigned hrel.locals hrel.paired hrel.paired' ht _, paired_assigned hrel.paired hfits,
    paired_assigned hrel.paired' hfits'⟩

theorem replaceAll {old old' : VType} (hold : S old old') (huninit : old.isUninitialized = true)
    (huninit' : old'.isUninitialized = true) (name : BinaryName) :
    Follows S L (fun _ _ => True) (Exec.replaceAll old (.ofClass name)) (Exec.replaceAll old' (.ofClass name)) := by
  intro f f' u g' hrel h
  have hpaired' := paired_effect.replaceAll huninit' name f' u g' h hrel.paired'
  obtain ⟨-, rfl⟩ := Prod.mk.inj (Except.ok.inj h)
  refine ⟨(), _, rfl, trivial, ?_, ?_, paired_effect.replaceAll huninit name f () _ rfl hrel.paired, hpaired'⟩
  · refine List.rel_map ?_ hrel.stack
    intro c d hcd
    exact (hR.replace hold huninit' name c d).1 hcd
  · refine List.rel_map ?_ hrel.locals
    intro c d hcd
    exact (hR.replace hold huninit' name c d).2 hcd

/-! ## Operations -/

theorem shuffle (how : Shuffle) : Follows S L (fun _ _ => True) (Exec.shuffle how) (Exec.shuffle how) := by
  have hword : ∀ {a a' : VType}, S a a' → (Bytecode.width a = 1 ↔ Bytecode.width a' = 1) := by
    intro a a' ha
    rw [hR.width ha]
  unfold Exec.shuffle
  cases how with
  | pop => exact .bind hR.popWord fun _ _ _ => .pure trivial
  | pop2 =>
    refine .bind .pop fun a a' ha => .ite (hword ha) (fun _ => ?_) fun _ => .pure trivial
    exact .bind hR.popWord fun _ _ _ => .pure trivial
  | dup => exact .bind hR.popWord fun a a' ha => .pushAll (.cons ha (.cons ha .nil))
  | dupX1 =>
    exact .bind hR.popWord fun a a' ha => .bind hR.popWord fun b b' hb =>
      .pushAll (.cons ha (.cons hb (.cons ha .nil)))
  | dupX2 =>
    refine .bind hR.popWord fun a a' ha => .bind .pop fun b b' hb => .ite (hword hb) (fun _ => ?_) fun _ => ?_
    · exact .bind hR.popWord fun c c' hc => .pushAll (.cons ha (.cons hc (.cons hb (.cons ha .nil))))
    · exact .pushAll (.cons ha (.cons hb (.cons ha .nil)))
  | dup2 =>
    refine .bind .pop fun a a' ha => .ite (hword ha) (fun _ => ?_) fun _ => ?_
    · exact .bind hR.popWord fun b b' hb => .pushAll (.cons hb (.cons ha (.cons hb (.cons ha .nil))))
    · exact .pushAll (.cons ha (.cons ha .nil))
  | dup2X1 =>
    refine .bind .pop fun a a' ha => .bind hR.popWord fun b b' hb => .ite (hword ha) (fun _ => ?_) fun _ => ?_
    · exact .bind hR.popWord fun c c' hc =>
        .pushAll (.cons hb (.cons ha (.cons hc (.cons hb (.cons ha .nil)))))
    · exact .pushAll (.cons ha (.cons hb (.cons ha .nil)))
  | dup2X2 =>
    refine .bind .pop fun a a' ha => .ite (hword ha) (fun _ => ?_) fun _ => ?_
    · refine .bind hR.popWord fun b b' hb => .bind .pop fun c c' hc => .ite (hword hc) (fun _ => ?_) fun _ => ?_
      · exact .bind hR.popWord fun d d' hd =>
          .pushAll (.cons hb (.cons ha (.cons hd (.cons hc (.cons hb (.cons ha .nil))))))
      · exact .pushAll (.cons hb (.cons ha (.cons hc (.cons hb (.cons ha .nil)))))
    · refine .bind .pop fun b b' hb => .ite (hword hb) (fun _ => ?_) fun _ => ?_
      · exact .bind hR.popWord fun c c' hc => .pushAll (.cons ha (.cons hc (.cons hb (.cons ha .nil))))
      · exact .pushAll (.cons ha (.cons hb (.cons ha .nil)))
  | swap =>
    exact .bind hR.popWord fun a a' ha => .bind hR.popWord fun b b' hb => .pushAll (.cons ha (.cons hb .nil))

theorem construct (thisClass : BinaryName) :
    Follows S L (fun _ _ => True) (Exec.construct thisClass) (Exec.construct thisClass) := by
  unfold Exec.construct
  refine .bind .pop fun a a' ha => ?_
  cases a' with
  | uninitializedThis =>
    obtain rfl := hR.this ha
    exact hR.replaceAll ha rfl rfl thisClass
  | uninitialized position name =>
    obtain ⟨position', rfl⟩ := hR.uninitialized ha
    exact hR.replaceAll ha rfl rfl name
  | _ => exact .of_fails (fails_incompatible _ _)

theorem invoke (context : ExecutionContext) (kind : InvokeKind) (index : UInt16) (position : Nat) :
    Follows S L (fun _ _ => True) (Exec.invoke { context with position } kind index) (Exec.invoke context kind index) := by
  unfold Exec.invoke
  refine .bind (.lift _) ?_
  rintro method _ ⟨rfl, -⟩
  refine .bind (hR.popArguments _) fun _ _ _ => .ite Iff.rfl (fun _ => ?_) fun _ => ?_
  · exact .check id (fails_throw_bind _ _) (hR.construct _)
  · refine .ite Iff.rfl (fun _ => ?_) fun _ => hR.pushResult _
    exact .bind (hR.popInitialized _) fun _ _ _ => hR.pushResult _

theorem returnValue (context : ExecutionContext) (type : LocalType) (position : Nat) :
    Follows S L (fun _ _ => True) (Exec.returnValue { context with position } type) (Exec.returnValue context type) := by
  unfold Exec.returnValue
  dsimp only
  cases context.returnType with
  | none => exact .of_fails (fails_throw _)
  | some returnType =>
    refine .bind .pop fun t t' ht => .check ?_ (fails_throw _) (.pure trivial)
    simp only [not_or, Bool.not_eq_true', Bool.not_eq_false]
    rintro ⟨hkind, hassignable⟩
    exact ⟨hkind, hR.assignable ht hassignable⟩

theorem element (element : ArrayElement) {a a' : VType} (ha : S a a') :
    Follows S L (fun t t' => t ≤ t' ∧ t'.IsProper) (liftM (arrayElementType a element))
      (liftM (arrayElementType a' element)) := by
  intro f f' t' g' hrel h
  obtain ⟨_, hx, heq⟩ := state_lift_eq_ok.mp h
  obtain ⟨rfl, rfl⟩ := Prod.mk.inj heq
  have hle := hR.initialized ha (isInitialized_of_arrayElementType hx)
  obtain ⟨t, ht, hbelow⟩ := arrayElementType_mono hle hx
  exact ⟨t, f, state_lift_eq_ok.mpr ⟨t, ht, rfl⟩, hbelow, hrel⟩

theorem storable {t t' value value' : VType} (ht : t ≤ t') (hproper : t'.IsProper) (hvalue : S value value')
    (h : Exec.storable t' value' = true) : Exec.storable t value = true := by
  rcases hproper with hinit | ⟨n, rfl⟩
  · rw [storable_of_isInitialized hinit] at h
    rw [storable_of_isInitialized (VType.isInitialized_of_le ht hinit)]
    exact hR.isInitialized hvalue h
  · rw [storable_ofNumeric, decide_eq_true_eq] at h
    subst h
    rw [hR.numeric hvalue, VType.eq_of_le_ofNumeric ht, storable_ofNumeric, decide_eq_true_eq]

/-- Operations on related frames, other than storing a reference. -/
theorem runOther {op : Op} {context : ExecutionContext} {position : Nat}
    (hload : ∀ index t, context.constants.loadable index = .ok t → S t t)
    (hnew : ∀ index, op = .newObject index → ∀ name,
      S (.uninitialized position name) (.uninitialized context.position name))
    (hop : ∀ index, op ≠ .store .reference index) :
    Follows S L (fun _ _ => True) (op.run { context with position }) (op.run context) := by
  unfold Op.run
  cases op with
  | nop => exact .pure trivial
  | pushNull => exact .push (hR.value (le_refl _) (Or.inl rfl))
  | const type => exact hR.pushNumeric type
  | ldc index =>
    refine .bind (.lift _) ?_
    rintro t _ ⟨rfl, ht⟩
    exact .check id (fails_throw_bind _ _) (.push (hload index t ht))
  | ldc2 index =>
    refine .bind (.lift _) ?_
    rintro t _ ⟨rfl, ht⟩
    exact .check id (fails_throw_bind _ _) (.push (hload index t ht))
  | load type index =>
    cases type with
    | reference =>
      refine .bind (getLocal index) fun t t' ht => ?_
      by_cases hreference : t'.isReference = true
      · have hrelated := hR.load ht hreference
        refine .check ?_ (fails_incompatible_bind _ _ _) (.push hrelated)
        simp [hR.reference hrelated hreference]
      · apply Follows.of_fails
        simp only [Bool.not_eq_true] at hreference
        simp only [hreference, Bool.not_false, if_true]
        exact fails_incompatible_bind _ _ _
    | numeric type => exact .bind (hR.checkNumeric index type) fun _ _ _ => hR.pushNumeric type
  | store type index =>
    cases type with
    | reference => exact absurd rfl (hop index)
    | numeric type =>
      exact .bind (hR.popNumeric type) fun _ _ _ => hR.setLocal index (hR.value (le_refl _) (Or.inr ⟨type, rfl⟩))
  | arrayLoad element =>
    refine .bind hR.popInt fun _ _ _ => .bind .pop fun a a' ha => .bind (hR.element element ha) ?_
    rintro t t' ⟨ht, hproper⟩
    exact .push (hR.value ht hproper)
  | arrayStore element =>
    refine .bind .pop fun value value' hvalue => .bind hR.popInt fun _ _ _ => .bind .pop fun a a' ha =>
      .bind (hR.element element ha) ?_
    rintro t t' ⟨ht, hproper⟩
    refine .check ?_ (fails_incompatible _ _) (.pure trivial)
    simp only [Bool.not_eq_true', Bool.not_eq_false]
    exact hR.storable ht hproper hvalue
  | shuffle how => exact hR.shuffle how
  | arithmetic type =>
    exact .bind (hR.popNumeric type) fun _ _ _ => .bind (hR.popNumeric type) fun _ _ _ => hR.pushNumeric type
  | negate type => exact .bind (hR.popNumeric type) fun _ _ _ => hR.pushNumeric type
  | shift type => exact .bind hR.popInt fun _ _ _ => .bind (hR.popNumeric type) fun _ _ _ => hR.pushNumeric type
  | increment index amount => exact hR.checkNumeric index .int
  | convert source target => exact .bind (hR.popNumeric source) fun _ _ _ => hR.pushNumeric target
  | compare type =>
    exact .bind (hR.popNumeric type) fun _ _ _ => .bind (hR.popNumeric type) fun _ _ _ => hR.pushInt
  | leave type =>
    cases type with
    | none => exact .check id (fails_throw _) (.pure trivial)
    | some type => exact hR.returnValue context type position
  | throwException =>
    refine .bind (hR.popInitialized _) fun _ _ _ => ?_
    intro f f' u g' hrel h
    obtain ⟨-, rfl⟩ := Prod.mk.inj (Except.ok.inj h)
    exact ⟨(), _, rfl, trivial, .nil, hrel.locals, hrel.paired, hrel.paired'⟩
  | getStatic index =>
    refine .bind (.lift _) ?_
    rintro type _ ⟨rfl, -⟩
    exact hR.pushField type
  | putStatic index =>
    refine .bind (.lift _) ?_
    rintro type _ ⟨rfl, -⟩
    exact hR.popAssignable type
  | getField index =>
    refine .bind (.lift _) ?_
    rintro type _ ⟨rfl, -⟩
    exact .bind (hR.popInitialized _) fun _ _ _ => hR.pushField type
  | putField index =>
    refine .bind (.lift _) ?_
    rintro type _ ⟨rfl, -⟩
    refine .bind (hR.popAssignable type) fun _ _ _ => .bind .pop fun a a' ha => ?_
    refine .check ?_ (fails_incompatible _ _) (.pure trivial)
    simp only [Bool.not_eq_true', not_and, not_not]
    intro hobject hinit
    by_cases hinit' : a'.isInitialized = true
    · rw [hR.isInitialized ha hinit'] at hinit
      simp at hinit
    · rw [hobject (by simpa using hinit')] at ha
      exact hR.this ha
  | invoke kind index => exact hR.invoke context kind index position
  | invokeDynamic index =>
    refine .bind (.lift _) ?_
    rintro descriptor _ ⟨rfl, -⟩
    exact .bind (hR.popArguments _) fun _ _ _ => hR.pushResult _
  | newObject index =>
    refine .bind (.lift _) ?_
    rintro type _ ⟨rfl, -⟩
    cases type with
    | object name => exact .push (hnew index rfl name)
    | array dimensions element => exact .of_fails (fails_throw _)
  | newArray element => exact .bind hR.popInt fun _ _ _ => hR.pushObject _
  | newRefArray index =>
    refine .bind (.lift _) ?_
    rintro type _ ⟨rfl, -⟩
    exact .bind hR.popInt fun _ _ _ => hR.pushObject _
  | newMultiArray index dimensions =>
    refine .bind (.lift _) ?_
    rintro type _ ⟨rfl, -⟩
    exact .check id (fails_throw_bind _ _) (.bind (.forM (fun _ => hR.popInt) _) fun _ _ _ => hR.pushObject _)
  | arrayLength =>
    refine .bind .pop fun a a' ha => ?_
    cases a' with
    | null =>
      cases hR.initialized ha rfl with
      | refl => exact hR.pushInt
    | object type =>
      cases type with
      | object name => exact .of_fails (fails_incompatible _ _)
      | array dimensions element =>
        cases hR.initialized ha rfl with
        | refl => exact hR.pushInt
        | null => exact hR.pushInt
    | _ => exact .of_fails (fails_incompatible _ _)
  | checkCast index =>
    refine .bind (.lift _) ?_
    rintro type _ ⟨rfl, -⟩
    exact .bind (hR.popInitialized _) fun _ _ _ => hR.pushObject type
  | instanceOf index =>
    refine .bind (.lift _) ?_
    rintro type _ ⟨rfl, -⟩
    exact .bind (hR.popInitialized _) fun _ _ _ => hR.pushInt
  | monitorEnter => exact hR.popInitialized _
  | monitorExit => exact hR.popInitialized _

/-- **Operations on related frames.**  What goes through on the one frame goes through on the other.  A return
address is only stored where the local has none of another subroutine. -/
theorem run {op : Op} {context : ExecutionContext} {position : Nat} {f f' g' : Frame} {u : Unit}
    (hload : ∀ index t, context.constants.loadable index = .ok t → S t t)
    (hnew : ∀ index, op = .newObject index → ∀ name,
      S (.uninitialized position name) (.uninitialized context.position name))
    (haddress : ∀ index entry rest old, op = .store .reference index → f.stack = .returnAddress entry :: rest →
      f.locals[index.toNat]? = some (.returnAddress old) → old = entry)
    (hrel : f.Related S L f') (h : op.run context f' = .ok (u, g')) :
    ∃ g, op.run { context with position } f = .ok (u, g) ∧ g.Related S L g' := by
  by_cases hop : ∃ index, op = .store .reference index
  · obtain ⟨index, rfl⟩ := hop
    obtain ⟨t', rest', hstack', hkind', hset'⟩ := storeReference_eq_ok.mp h
    have hstack := hrel.stack
    rw [hstack'] at hstack
    obtain ⟨t, rest, ht, hrest, hstack⟩ := List.forall₂_cons_right_iff.mp hstack
    have hrel' : Frame.Related S L { f with stack := rest } { f' with stack := rest' } :=
      ⟨hrest, hrel.locals, hrel.paired, hrel.paired'⟩
    obtain ⟨_, g, hset, -, hrelated⟩ := hR.setLocal index ht _ _ _ _ hrel' hset'
    refine ⟨g, storeReference_eq_ok.mpr ⟨t, rest, hstack, ?_, hset⟩, hrelated⟩
    rcases hkind' with hreference | ⟨entry, rfl, -⟩
    · exact Or.inl (hR.reference ht hreference)
    · obtain rfl := hR.address ht
      exact Or.inr ⟨entry, rfl, fun old hold => haddress index entry rest old rfl hstack hold⟩
  · push Not at hop
    obtain ⟨_, g, hrun, -, hrelated⟩ := hR.runOther hload hnew hop f f' u g' hrel h
    exact ⟨g, hrun, hrelated⟩

theorem executeBranch {kind : BranchKind} {f f' g' : Frame} (hrel : f.Related S L f') (h : f'.executeBranch kind = .ok g') :
    ∃ g, f.executeBranch kind = .ok g ∧ g.Related S L g' := by
  unfold Frame.executeBranch at h ⊢
  refine Follows.snd ?_ hrel h
  cases kind with
  | ifInt => exact hR.popInt
  | ifIntCompare => exact .bind hR.popInt fun _ _ _ => hR.popInt
  | ifRefCompare => exact .bind hR.popReference fun _ _ _ => hR.popReference
  | ifNull => exact hR.popReference
  | goto => exact .pure trivial

theorem executeSelect {f f' g' : Frame} (hrel : f.Related S L f') (h : f'.executeSelect = .ok g') :
    ∃ g, f.executeSelect = .ok g ∧ g.Related S L g' :=
  Follows.snd hR.popInt hrel h

end Relates

end Exec

end Bytecode
