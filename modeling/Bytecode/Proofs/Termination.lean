import Bytecode.Proofs.Worklist

/-!
# Verification ends

Every round lowers the measure of the session, or only makes the worklist shorter (`Session.Advances`).  How many rounds
there can be depends on the method alone: on the length of its code and on the sizes of its frames.

* `Frame.Regular.rank_le`: a frame can change only so often;
* `Session.weight`: the measure and the worklist as one number, which every round lowers
  (`Session.weight_lt_of_advances`) and which is below `Method.roundBound` (`Inference.Passes.limited`);
* `verification_ends`: within so many rounds a method is accepted or refused.
-/

namespace Bytecode

/-! ## How often things can change -/

namespace PositionMap

variable {α : Type}

theorem vacancies_le (m : PositionMap α) : m.vacancies ≤ m.bound := by
  unfold vacancies bound
  rw [← Array.length_toList]
  exact List.countP_le_length

theorem total_le {m : PositionMap α} {weight : α → Nat} {limit : Nat}
    (h : ∀ p a, m.get? p = some a → weight a ≤ limit) : m.total weight ≤ m.bound * limit := by
  have hslots : ∀ slot ∈ m.slots.toList, slot.elim 0 weight ≤ limit := by
    intro slot hslot
    cases slot with
    | none => exact Nat.zero_le _
    | some a =>
      obtain ⟨p, hp⟩ := List.mem_iff_getElem?.mp hslot
      rw [Array.getElem?_toList] at hp
      exact h p a (get?_eq_some_iff.mpr hp)
  unfold total bound
  rw [← Array.length_toList]
  generalize m.slots.toList = slots at hslots
  induction slots with
  | nil => simp
  | cons slot slots ih =>
    have hhead := hslots slot List.mem_cons_self
    have htail := ih fun other hother => hslots other (List.mem_cons_of_mem slot hother)
    rw [List.foldr_cons, List.length_cons, Nat.add_mul, Nat.one_mul]
    omega

end PositionMap

theorem VType.rank_le (t : VType) : t.rank ≤ 3 := by
  cases t with
  | object type =>
    simp only [VType.rank]
    split <;> omega
  | _ => simp [VType.rank]

namespace Frame

theorem typesRank_le (ts : List VType) : typesRank ts ≤ 3 * ts.length := by
  unfold typesRank
  induction ts with
  | nil => simp
  | cons t ts ih =>
    have hrank := t.rank_le
    rw [List.foldr_cons, List.length_cons]
    omega

theorem length_le_stackHeight (ts : List VType) : ts.length ≤ stackHeight ts := by
  induction ts with
  | nil => simp
  | cons t ts ih =>
    have hwidth : 1 ≤ width t := by cases t <;> simp [width]
    have happend : stackHeight (t :: ts) = width t + stackHeight ts := by
      rw [← List.singleton_append, stackHeight_append]
      simp [stackHeight]
    rw [happend, List.length_cons]
    omega

/-- A regular frame changes at most so often: its locals and what is on its stack, and the subroutines that are active,
which are places of the code. -/
theorem Regular.rank_le {setup : Setup} {r : Registry} {R : Nat → Nat → Prop} {f : Frame} {length : Nat}
    (h : f.Regular setup r) (haccounts : r.Accounts (· < length) R) :
    f.rank ≤ 3 * (setup.maxLocals + setup.maxStack) + length := by
  have hlocals := typesRank_le f.locals
  have hstack := typesRank_le f.stack
  have hheight : stackHeight f.stack ≤ setup.maxStack := h.height
  have hlength := length_le_stackHeight f.stack
  have hnesting : f.nesting.length ≤ length := by
    refine length_le_of_nodup h.nodup ?_
    intro entry hentry
    obtain ⟨sub, hsub⟩ := Option.isSome_iff_exists.mp (h.active entry hentry)
    exact (haccounts entry sub hsub).1
  rw [h.length] at hlocals
  unfold rank
  omega

end Frame

/-! ## The number of rounds -/

namespace Method

/-- How often a frame of a method can change. -/
def frameChanges (method : Method) : Nat :=
  3 * (method.code.maxLocals.toNat + method.code.maxStack.toNat) + method.code.bytes.length

/-- How many rounds the analysis of a method can have: as many as the worklist can have places, for every time that the
frames can change, for every place and every call that can be found. -/
def roundBound (method : Method) : Nat :=
  (2 * method.code.bytes.length + 1) * (2 * method.code.bytes.length * method.frameChanges + 1) *
    (method.code.bytes.length + 1)

end Method

namespace Session

variable {setup : Setup} {s t : Session} {length changes : Nat}

/-- The measure and the worklist as one number, where frames change at most so often. -/
def weight (length changes : Nat) (s : Session) : Nat :=
  (s.gaps * (2 * length * changes + 1) + s.potential) * (length + 1) + s.worklist.length

/-- What is known of the sizes in a session. -/
structure Limited (length changes : Nat) (s : Session) : Prop where
  gaps : s.gaps ≤ 2 * length
  potential : s.potential ≤ 2 * length * changes
  worklist : s.worklist.length ≤ length

theorem Limited.weight_lt (h : s.Limited length changes) :
    s.weight length changes < (2 * length + 1) * (2 * length * changes + 1) * (length + 1) := by
  have hmeasure : s.gaps * (2 * length * changes + 1) + s.potential + 1 ≤
      (2 * length + 1) * (2 * length * changes + 1) := by
    have hgaps := Nat.mul_le_mul_right (2 * length * changes + 1) h.gaps
    have hpotential := h.potential
    rw [Nat.add_mul, Nat.one_mul]
    omega
  have hle := Nat.mul_le_mul_right (length + 1) hmeasure
  have hwork := h.worklist
  rw [Nat.add_mul, Nat.one_mul] at hle
  unfold weight
  omega

/-- A round makes the weight lower. -/
theorem weight_lt_of_advances {position : Nat} {rest : List Nat} (hwork : s.worklist = position :: rest)
    (hadvances : { s with worklist := rest }.Advances t) (ht : t.Limited length changes) :
    t.weight length changes < s.weight length changes := by
  have hpotential := ht.potential
  have hmeasure : t.gaps * (2 * length * changes + 1) + t.potential + 1 ≤
        s.gaps * (2 * length * changes + 1) + s.potential ∨
      t.gaps = s.gaps ∧ t.potential = s.potential ∧ t.worklist = rest := by
    rcases hadvances with (hgaps | ⟨hgaps, hlower⟩) | hsame
    · have hle : (t.gaps + 1) * (2 * length * changes + 1) ≤ s.gaps * (2 * length * changes + 1) :=
        Nat.mul_le_mul_right _ hgaps
      rw [Nat.add_mul, Nat.one_mul] at hle
      exact Or.inl (by omega)
    · have heq : t.gaps = s.gaps := hgaps
      have hlt : t.potential < s.potential := hlower
      rw [heq]
      exact Or.inl (by omega)
    · exact Or.inr hsame
  unfold weight
  rcases hmeasure with hlower | ⟨hgaps, hpotential, hrest⟩
  · have hle := Nat.mul_le_mul_right (length + 1) hlower
    have hshort := ht.worklist
    rw [Nat.add_mul, Nat.one_mul] at hle
    omega
  · rw [hgaps, hpotential, hrest, hwork, List.length_cons]
    omega

/-- So many rounds are all: nothing is left to look at, or there was a refusal. -/
def EndsWithin (setup : Setup) (count : Nat) (s : Session) : Prop :=
  (∃ t, s.rounds setup count = .ok t ∧ t.worklist = []) ∨ ∃ e, s.rounds setup count = .error e

/-- One round, and then so many. -/
theorem endsWithin_succ {count position : Nat} {rest : List Nat} (hwork : s.worklist = position :: rest)
    (h : ∀ t, { s with worklist := rest }.round setup position = .ok t → t.EndsWithin setup count) :
    s.EndsWithin setup (count + 1) := by
  unfold EndsWithin rounds
  simp only [hwork]
  cases hround : { s with worklist := rest }.round setup position with
  | error e => exact Or.inr ⟨e, rfl⟩
  | ok t => exact h t hround

theorem endsWithin_of_idle (count : Nat) (hidle : s.worklist = []) : s.EndsWithin setup count := by
  refine Or.inl ⟨s, ?_, hidle⟩
  cases count with
  | zero => rfl
  | succ count =>
    unfold rounds
    simp only [hidle]

/-- Rounds come to an end, whatever they begin with. -/
theorem exists_endsWithin (setup : Setup) (s : Session) : ∃ count, s.EndsWithin setup count := by
  fun_induction Session.run setup s with
  | case1 s hidle => exact ⟨0, endsWithin_of_idle 0 hidle⟩
  | case2 s position rest hwork e hround =>
    refine ⟨1, endsWithin_succ hwork ?_⟩
    intro t ht
    rw [hround] at ht
    simp at ht
  | case3 s position rest hwork t hround ih =>
    obtain ⟨count, hend⟩ := ih
    refine ⟨count + 1, endsWithin_succ hwork ?_⟩
    intro t' ht'
    obtain rfl := Except.ok.inj (hround.symm.trans ht')
    exact hend

theorem wellFounded_below : WellFounded fun t s : Session => s.Below t := by
  refine Subrelation.wf ?_ (InvImage.wf (fun s : Session => (s.gaps, s.potential)) (Prod.lex Nat.lt_wfRel Nat.lt_wfRel).wf)
  rintro t s (hgaps | ⟨hgaps, hpotential⟩)
  · exact Prod.Lex.left _ _ hgaps
  · show Prod.Lex _ _ (t.gaps, t.potential) (s.gaps, s.potential)
    rw [hgaps]
    exact Prod.Lex.right _ hpotential

end Session

namespace Inference

variable {setup : Setup} {entry : Frame} {look : Option (Nat × Frame)} {s : Session} {method : Method} {recording : Bool}

/-- Every session that is passed is limited by the method. -/
theorem Passes.limited (hfits : method.code.bytes.length < 2 ^ 64) (hprepare : prepare recording method = .ok (setup, entry))
    (h : Passes setup entry look s) : s.Limited method.code.bytes.length method.frameChanges := by
  obtain ⟨rfl, hp, -⟩ := prepare_spec hfits hprepare
  obtain ⟨hcaught, hregular⟩ := regular_of_prepare hprepare
  obtain ⟨⟨hsized, hnodup, hstarts, -⟩, hsubroutines⟩ := h.grounded (anchored_of_prepare hfits hprepare)
  obtain ⟨hholds, -⟩ := h.regular hcaught hregular
  have haccounts : s.registry.Accounts (· < setup.method.code.bytes.length) fun _ _ => True := by
    intro callee sub hsub
    obtain ⟨hstart, hrets, -⟩ := hsubroutines callee sub hsub
    exact ⟨hstart.lt_length hp, hrets, fun _ _ => trivial⟩
  have hstates : s.states.bound = setup.method.code.bytes.length := hsized.states.trans hp.tiles.codeLength_eq
  have hcalls : s.calls.bound = setup.method.code.bytes.length := hsized.calls.trans hp.tiles.codeLength_eq
  have hrank : ∀ f : Frame, s.Holds f → f.rank ≤ setup.method.frameChanges := fun f hf => (hholds f hf).rank_le haccounts
  refine ⟨?_, ?_, length_le_of_nodup hnodup fun p hmem => (hstarts p hmem).lt_length hp⟩
  · have hvacant := s.states.vacancies_le
    have hunseen := s.calls.vacancies_le
    unfold Session.gaps
    omega
  · have hstate : s.states.total (fun state => state.frame.rank) ≤ s.states.bound * setup.method.frameChanges :=
      PositionMap.total_le fun p st hst => hrank st.frame (.state hst)
    have hcall : s.calls.total (fun call => call.frame.rank) ≤ s.calls.bound * setup.method.frameChanges :=
      PositionMap.total_le fun p site hsite => hrank site.frame (.call hsite)
    rw [hstates] at hstate
    rw [hcalls] at hcall
    unfold Session.potential
    rw [Nat.mul_assoc, Nat.two_mul]
    exact Nat.add_le_add hstate hcall

/-- The weight is enough rounds. -/
theorem Passes.endsWithin {count : Nat} (hfits : method.code.bytes.length < 2 ^ 64)
    (hprepare : prepare recording method = .ok (setup, entry)) (h : Passes setup entry none s)
    (hcount : s.weight method.code.bytes.length method.frameChanges ≤ count) : s.EndsWithin setup count := by
  induction count generalizing s with
  | zero =>
    refine Session.endsWithin_of_idle 0 (List.length_eq_zero_iff.mp ?_)
    unfold Session.weight at hcount
    omega
  | succ count ih =>
    cases hwork : s.worklist with
    | nil => exact Session.endsWithin_of_idle _ hwork
    | cons position rest =>
      refine Session.endsWithin_succ hwork ?_
      intro t hround
      obtain ⟨-, hp, -⟩ := prepare_spec hfits hprepare
      have ht := passes_round hp h hwork hround
      have hlt := Session.weight_lt_of_advances hwork (Session.round_advances hround) (ht.limited hfits hprepare)
      exact ih ht (by omega)

end Inference

namespace Method

/-- So many rounds are enough to accept a method, or to refuse it. -/
def EndsWithin (method : Method) (count : Nat) : Prop :=
  (∃ v, method.verifyWithin count = some v ∧ method.verify = .ok v) ∨
    ∃ e, method.refusedWithin count = some e ∧ method.verify = .error e

theorem endsWithin_of_rounds {method : Method} {count : Nat}
    (h : ∀ setup entry first, Inference.prepare false method = .ok (setup, entry) →
      (Session.start setup.body.codeLength setup.method.code.maxLocals.toNat).mergeInto setup 0 entry = .ok first →
      first.EndsWithin setup count) : method.EndsWithin count := by
  have hrefused : ∀ {e}, method.refusedWithin count = some e → method.EndsWithin count :=
    fun he => Or.inr ⟨_, he, verify_of_refused he⟩
  cases hprepare : Inference.prepare false method with
  | error e => exact hrefused (e := e) (by simp only [refusedWithin, hprepare])
  | ok prepared =>
    obtain ⟨setup, entry⟩ := prepared
    cases hfirst : (Session.start setup.body.codeLength setup.method.code.maxLocals.toNat).mergeInto setup 0 entry with
    | error rejection => exact hrefused (e := rejection.error) (by simp only [refusedWithin, hprepare, hfirst])
    | ok first =>
      rcases h setup entry first hprepare hfirst with ⟨t, hrounds, hidle⟩ | ⟨rejection, hrounds⟩
      · have hwithin : method.verifyWithin count = some (t.verified setup.body) := by
          simp only [verifyWithin, hprepare, hfirst, hrounds, hidle, if_true]
        exact Or.inl ⟨_, hwithin, verify_of_within hwithin⟩
      · exact hrefused (e := rejection.error) (by simp only [refusedWithin, hprepare, hfirst, hrounds])

theorem exists_endsWithin (method : Method) : ∃ count, method.EndsWithin count := by
  cases hprepare : Inference.prepare false method with
  | error e => exact ⟨0, endsWithin_of_rounds (by simp [hprepare])⟩
  | ok prepared =>
    obtain ⟨setup, entry⟩ := prepared
    cases hfirst : (Session.start setup.body.codeLength setup.method.code.maxLocals.toNat).mergeInto setup 0 entry with
    | error rejection =>
      refine ⟨0, endsWithin_of_rounds ?_⟩
      intro setup' entry' first hprepare' hfirst'
      obtain ⟨rfl, rfl⟩ := Prod.mk.inj (Except.ok.inj (hprepare.symm.trans hprepare'))
      simp [hfirst] at hfirst'
    | ok first =>
      obtain ⟨count, hend⟩ := Session.exists_endsWithin setup first
      refine ⟨count, endsWithin_of_rounds ?_⟩
      intro setup' entry' first' hprepare' hfirst'
      obtain ⟨rfl, rfl⟩ := Prod.mk.inj (Except.ok.inj (hprepare.symm.trans hprepare'))
      obtain rfl := Except.ok.inj (hfirst.symm.trans hfirst')
      exact hend

/-- However the rounds of a method go, the bound is enough. -/
theorem endsWithin_roundBound {method : Method} (hfits : method.code.bytes.length < 2 ^ 64) :
    method.EndsWithin method.roundBound := by
  refine endsWithin_of_rounds ?_
  intro setup entry first hprepare hfirst
  have hpasses : Inference.Passes setup entry none first := .enter hfirst
  exact hpasses.endsWithin hfits hprepare (hpasses.limited hfits hprepare).weight_lt.le

end Method

/-- **Verification ends.**  A round that puts anything on the worklist makes a measure lower that cannot become lower for
ever, and any other round makes the worklist shorter.  So every method is accepted or refused after finitely many rounds,
and the length of the code and the sizes of the frames tell how many are enough. -/
theorem verification_ends :
    WellFounded (fun t s : Session => s.Below t) ∧
    (∀ (setup : Setup) (s t : Session) (position : Nat) (rest : List Nat), s.worklist = position :: rest →
      { s with worklist := rest }.round setup position = .ok t →
      s.Below t ∨ t.gaps = s.gaps ∧ t.potential = s.potential ∧ t.worklist = rest) ∧
    ∀ method : Method, (∃ count, method.EndsWithin count) ∧
      (method.code.bytes.length < 2 ^ 64 → method.EndsWithin method.roundBound) := by
  refine ⟨Session.wellFounded_below, ?_, fun method => ⟨method.exists_endsWithin, Method.endsWithin_roundBound⟩⟩
  intro setup s t position rest _ hround
  exact Session.round_advances hround

/-- Code that goes round for ever:

    0 goto 0
-/
def endlessLoop : Method := Method.bare ⟨[], none⟩ 0 0 [0xa7, 0x00, 0x00]

/-- Its verification takes at most 532 rounds, and it is accepted. -/
theorem endlessLoop_ends :
    endlessLoop.code.bytes.length < 2 ^ 64 ∧ endlessLoop.roundBound = 532 ∧ endlessLoop.EndsWithin 532 ∧
      ∃ v, endlessLoop.verify = .ok v := by
  have hfits : endlessLoop.code.bytes.length < 2 ^ 64 := by decide
  obtain ⟨v, hverify, -⟩ := @Method.exists_of_within endlessLoop 2 (fun _ => true) (by decide +kernel)
  exact ⟨hfits, by decide, (verification_ends.2.2 endlessLoop).2 hfits, v, hverify⟩

end Bytecode
