import Mathlib.Data.List.Forall2

/-!
# Outcomes of computations that can fail

Readers of operands, changes of frames and rounds of inference all live in `Except`, some of them over a
state.  The lemmas here take a successful computation apart into its successful steps, and find the step at which
one fails, so that no proof has to open a bind by hand.  `errorOf?` forgets what a computation gives and keeps its
error; for a computation over a list this is the first error (`errorOf?_mapM`).
-/

namespace Bytecode

section Outcomes

variable {σ ε α β : Type}

variable {x : Except ε α} {f : α → Except ε β} {as : List α} {s : σ} {e : ε}

/-- A sequence of two computations succeeds through a success of the first. -/
theorem bind_eq_ok {b : β} : (x >>= f) = .ok b ↔ ∃ a, x = .ok a ∧ f a = .ok b := by
  cases x with
  | error e => simp [bind, Except.bind]
  | ok a => simp [bind, Except.bind]

theorem map_eq_ok {f : α → β} {b : β} : (f <$> x) = .ok b ↔ ∃ a, x = .ok a ∧ f a = b := by
  cases x with
  | error e => simp [Functor.map, Except.map]
  | ok a => simp [Functor.map, Except.map]

@[simp] theorem pure_eq_ok {a b : α} : (pure a : Except ε α) = .ok b ↔ a = b := by
  simp [pure, Except.pure]

/-- Naming an error otherwise does not change a success. -/
theorem mapError_eq_ok {δ : Type} {f : ε → δ} {a : α} : x.mapError f = .ok a ↔ x = .ok a := by
  cases x with
  | error e => simp [Except.mapError]
  | ok b => simp [Except.mapError]

theorem toOption_eq_some {a : α} : x.toOption = some a ↔ x = .ok a := by
  cases x with
  | error e => simp [Except.toOption]
  | ok b => simp [Except.toOption]

@[simp] theorem pure_eq_error {a : α} : (pure a : Except ε α) = .error e ↔ False := by
  simp [pure, Except.pure]

/-- A sequence of two computations fails where one of them does. -/
theorem bind_eq_error : (x >>= f) = .error e ↔ x = .error e ∨ ∃ a, x = .ok a ∧ f a = .error e := by
  cases x with
  | error e => simp [bind, Except.bind]
  | ok a => simp [bind, Except.bind]

theorem map_eq_error {f : α → β} : (f <$> x) = .error e ↔ x = .error e := by
  cases x with
  | error e => simp [Functor.map, Except.map]
  | ok a => simp [Functor.map, Except.map]

theorem mapError_eq_error {δ : Type} {f : ε → δ} {d : δ} : x.mapError f = .error d ↔ ∃ e, x = .error e ∧ f e = d := by
  cases x with
  | error e => simp [Except.mapError]
  | ok b => simp [Except.mapError]

/-- A sequence over a state, which the first computation hands on. -/
theorem state_bind_eq_ok {x : StateT σ (Except ε) α} {f : α → StateT σ (Except ε) β}
    {r : β × σ} : (x >>= f) s = .ok r ↔ ∃ a t, x s = .ok (a, t) ∧ f a t = .ok r := by
  change (x s >>= fun p => f p.1 p.2) = .ok r ↔ _
  rw [bind_eq_ok]
  constructor
  · rintro ⟨⟨a, t⟩, hx, hf⟩
    exact ⟨a, t, hx, hf⟩
  · rintro ⟨a, t, hx, hf⟩
    exact ⟨(a, t), hx, hf⟩

@[simp] theorem state_pure_eq_ok {a : α} {r : α × σ} : (pure a : StateT σ (Except ε) α) s = .ok r ↔ (a, s) = r := by
  change (Except.ok (a, s) : Except ε (α × σ)) = .ok r ↔ _
  simp

theorem state_map_eq_ok {x : StateT σ (Except ε) α} {f : α → β} {r : β × σ} :
    (f <$> x) s = .ok r ↔ ∃ a t, x s = .ok (a, t) ∧ r = (f a, t) := by
  change (x s >>= fun p => .ok (f p.1, p.2)) = .ok r ↔ _
  rw [bind_eq_ok]
  constructor
  · rintro ⟨⟨a, t⟩, hx, hf⟩
    exact ⟨a, t, hx, (Except.ok.inj hf).symm⟩
  · rintro ⟨a, t, hx, rfl⟩
    exact ⟨(a, t), hx, rfl⟩

/-- A computation that does not touch the state. -/
theorem state_lift_eq_ok {r : α × σ} : (liftM x : StateT σ (Except ε) α) s = .ok r ↔ ∃ a, x = .ok a ∧ r = (a, s) := by
  change (x >>= fun a => .ok (a, s)) = .ok r ↔ _
  rw [bind_eq_ok]
  constructor
  · rintro ⟨a, hx, hr⟩
    exact ⟨a, hx, (Except.ok.inj hr).symm⟩
  · rintro ⟨a, hx, rfl⟩
    exact ⟨a, hx, rfl⟩

@[simp] theorem state_throw_ne_ok {r : α × σ} : (throw e : StateT σ (Except ε) α) s = .ok r ↔ False := by
  change (Except.error e : Except ε (α × σ)) = .ok r ↔ False
  simp

/-- A computation for each of some elements succeeds through successes for all of them. -/
theorem mapM_eq_ok {bs : List β} : as.mapM f = .ok bs ↔ List.Forall₂ (fun a b => f a = .ok b) as bs := by
  induction as generalizing bs with
  | nil =>
    rw [List.mapM_nil, pure_eq_ok, List.forall₂_nil_left_iff]
    exact eq_comm
  | cons a as ih =>
    rw [List.mapM_cons, bind_eq_ok, List.forall₂_cons_left_iff]
    constructor
    · rintro ⟨b, hb, hrest⟩
      obtain ⟨bs', hbs', h⟩ := bind_eq_ok.mp hrest
      exact ⟨b, bs', hb, ih.mp hbs', (pure_eq_ok.mp h).symm⟩
    · rintro ⟨b, bs', hb, hbs', rfl⟩
      exact ⟨b, hb, bind_eq_ok.mpr ⟨bs', ih.mpr hbs', rfl⟩⟩

/-- Related lists are related place by place. -/
theorem forall₂_getElem? {R : α → β → Prop} {bs : List β} (h : List.Forall₂ R as bs) {k : Nat}
    {b : β} (hb : bs[k]? = some b) : ∃ a, as[k]? = some a ∧ R a b := by
  induction h generalizing k with
  | nil => simp at hb
  | @cons a b' as bs hab h ih =>
    cases k with
    | zero =>
      rw [List.getElem?_cons_zero] at hb
      obtain rfl := Option.some.inj hb
      exact ⟨a, rfl, hab⟩
    | succ k =>
      rw [List.getElem?_cons_succ] at hb
      exact ih hb

theorem mem_of_mapM {bs : List β} (h : as.mapM f = .ok bs) {b : β} : b ∈ bs ↔ ∃ a ∈ as, f a = .ok b := by
  have hall := mapM_eq_ok.mp h
  constructor
  · intro hb
    obtain ⟨k, hk⟩ := List.mem_iff_getElem?.mp hb
    obtain ⟨a, ha, hab⟩ := forall₂_getElem? hall hk
    exact ⟨a, List.mem_of_getElem? ha, hab⟩
  · rintro ⟨a, ha, hab⟩
    obtain ⟨k, hk⟩ := List.mem_iff_getElem?.mp ha
    obtain ⟨b', hb', hab'⟩ := forall₂_getElem? hall.flip hk
    obtain rfl := Except.ok.inj (hab.symm.trans hab')
    exact List.mem_of_getElem? hb'

/-- A computation for each of some elements fails at one of them. -/
theorem exists_of_mapM_error (h : as.mapM f = .error e) : ∃ a ∈ as, f a = .error e := by
  induction as with
  | nil => simp at h
  | cons a as ih =>
    rw [List.mapM_cons, bind_eq_error] at h
    rcases h with hhead | ⟨b, -, hrest⟩
    · exact ⟨a, List.mem_cons_self .., hhead⟩
    · rcases bind_eq_error.mp hrest with htail | ⟨bs, -, hpure⟩
      · obtain ⟨a', ha', he⟩ := ih htail
        exact ⟨a', List.mem_cons_of_mem _ ha', he⟩
      · simp at hpure

/-- A computation for each of some elements goes through exactly if it does for every one. -/
theorem exists_mapM_iff : (∃ bs, as.mapM f = .ok bs) ↔ ∀ a ∈ as, ∃ b, f a = .ok b := by
  constructor
  · rintro ⟨bs, hbs⟩ a ha
    obtain ⟨k, hk⟩ := List.mem_iff_getElem?.mp ha
    obtain ⟨b, -, hab⟩ := forall₂_getElem? (mapM_eq_ok.mp hbs).flip hk
    exact ⟨b, hab⟩
  · intro h
    induction as with
    | nil => exact ⟨[], rfl⟩
    | cons a as ih =>
      obtain ⟨b, hb⟩ := h a (List.mem_cons_self ..)
      obtain ⟨bs, hbs⟩ := ih fun a' ha' => h a' (List.mem_cons_of_mem a ha')
      exact ⟨b :: bs, mapM_eq_ok.mpr (.cons hb (mapM_eq_ok.mp hbs))⟩

/-- In a chain of steps, every step sees to its own element, and the later steps keep what it saw to. -/
theorem foldlM_spec {f : σ → α → Except ε σ} {P : σ → Prop} {G : σ → σ → Prop} {Q : σ → α → Prop}
    (hrefl : ∀ s, G s s) (htrans : ∀ {s t u}, G s t → G t u → G s u)
    (hkeep : ∀ s t a, G s t → Q s a → Q t a)
    (hstep : ∀ s a t, a ∈ as → P s → f s a = .ok t → G s t ∧ P t ∧ Q t a) {t : σ} (hs : P s)
    (h : as.foldlM f s = .ok t) : G s t ∧ P t ∧ ∀ a ∈ as, Q t a := by
  induction as generalizing s with
  | nil =>
    rw [List.foldlM_nil, pure_eq_ok] at h
    subst h
    exact ⟨hrefl s, hs, fun a ha => by simp at ha⟩
  | cons a as ih =>
    rw [List.foldlM_cons, bind_eq_ok] at h
    obtain ⟨u, hu, hrest⟩ := h
    obtain ⟨hsu, hpu, hqu⟩ := hstep s a u (List.mem_cons_self ..) hs hu
    have hlater : ∀ s b t, b ∈ as → P s → f s b = .ok t → G s t ∧ P t ∧ Q t b := by
      intro s b t hb
      exact hstep s b t (List.mem_cons_of_mem a hb)
    obtain ⟨hut, hpt, hqt⟩ := ih hlater hpu hrest
    refine ⟨htrans hsu hut, hpt, ?_⟩
    intro b hb
    rcases List.mem_cons.mp hb with rfl | hmem
    · exact hkeep u t b hut hqu
    · exact hqt b hmem

/-- A chain of steps keeps what every step keeps. -/
theorem foldlM_keeps {f : σ → α → Except ε σ} {P : σ → Prop}
    (hstep : ∀ s a t, a ∈ as → P s → f s a = .ok t → P t) {t : σ} (hs : P s) (h : as.foldlM f s = .ok t) : P t := by
  have hspec := foldlM_spec (G := fun _ _ => True) (Q := fun _ _ => True) (fun _ => trivial) (fun _ _ => trivial)
    (fun _ _ _ _ => id) (fun s a t hmem hs hstep' => ⟨trivial, hstep s a t hmem hs hstep', trivial⟩) hs h
  exact hspec.2.1

/-- A loop goes through if every step goes through and keeps what the next one needs. -/
theorem foldlM_ok {f : σ → α → Except ε σ} {P : σ → Prop}
    (hstep : ∀ s a, a ∈ as → P s → ∃ t, f s a = .ok t ∧ P t) (hs : P s) : ∃ t, as.foldlM f s = .ok t ∧ P t := by
  induction as generalizing s with
  | nil => exact ⟨s, rfl, hs⟩
  | cons a as ih =>
    obtain ⟨u, hu, hpu⟩ := hstep s a (List.mem_cons_self ..) hs
    obtain ⟨t, ht, hpt⟩ := ih (fun s b hb => hstep s b (List.mem_cons_of_mem a hb)) hpu
    refine ⟨t, ?_, hpt⟩
    rw [List.foldlM_cons, bind_eq_ok]
    exact ⟨u, hu, ht⟩

/-! ## The error alone -/

/-- The error of a computation that fails. -/
def errorOf? : Except ε α → Option ε
  | .error e => some e
  | .ok _ => none

theorem errorOf?_eq_some : errorOf? x = some e ↔ x = .error e := by
  cases x <;> simp [errorOf?]

theorem errorOf?_eq_none : errorOf? x = none ↔ ∃ a, x = .ok a := by
  cases x <;> simp [errorOf?]

/-- In a sequence of two computations, where the first does not decide whether the second fails. -/
theorem errorOf?_bind {after : Option ε} (h : ∀ a, errorOf? (f a) = after) :
    errorOf? (x >>= f) = (errorOf? x).or after := by
  cases x with
  | error e => rfl
  | ok a => exact h a

theorem errorOf?_bind_pure {f : α → β} : errorOf? (x >>= fun a => pure (f a)) = errorOf? x := by
  cases x <;> rfl

/-- A computation for each of some elements fails with the first error. -/
theorem errorOf?_mapM (as : List α) : errorOf? (as.mapM f) = as.findSome? fun a => errorOf? (f a) := by
  induction as with
  | nil => rfl
  | cons a as ih =>
    rw [List.mapM_cons, errorOf?_bind fun b => errorOf?_bind_pure, ih, List.findSome?_cons]
    cases errorOf? (f a) with
    | none => rfl
    | some e => rfl

end Outcomes

end Bytecode
