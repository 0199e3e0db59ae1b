import Bytecode.Verification.Session

/-!
# Inference makes progress

Every round of inference either leaves the worklist alone or lowers a measure of the session that cannot be
lowered for ever: the number of places without a state and of calls not yet seen (`Session.gaps`), then the
ranks of the frames in the states and at the calls (`Session.potential`).

* `Advances s t` says that `t` comes after `s` in this way;
* `Session.round_advances` says that a round advances.
-/

namespace Bytecode

namespace Session

/-- Places without a state, and without a known call. -/
def gaps (s : Session) : Nat := s.states.vacancies + s.calls.vacancies

/-- Number of times frames can still change. -/
def potential (s : Session) : Nat :=
  s.states.total (fun state => state.frame.rank) + s.calls.total (fun call => call.frame.rank)

/-- The measure of `t` is below that of `s`. -/
def Below (s t : Session) : Prop :=
  t.gaps < s.gaps ∨ t.gaps = s.gaps ∧ t.potential < s.potential

/-- Either the measure went down, or it stayed and so did the worklist. -/
def Advances (s t : Session) : Prop :=
  Below s t ∨ t.gaps = s.gaps ∧ t.potential = s.potential ∧ t.worklist = s.worklist

theorem Advances.refl (s : Session) : Advances s s := Or.inr ⟨rfl, rfl, rfl⟩

theorem Advances.trans {s t u : Session} (h : Advances s t) (k : Advances t u) : Advances s u := by
  unfold Advances Below at *
  rcases h with h | ⟨hg, hp, hw⟩ <;> rcases k with k | ⟨kg, kp, kw⟩
  · left; omega
  · left; omega
  · left; omega
  · right
    exact ⟨kg.trans hg, kp.trans hp, kw.trans hw⟩

/-- Sessions that differ in other things than states, calls and worklist. -/
theorem advances_of_same {s t : Session} (hs : t.states = s.states) (hc : t.calls = s.calls)
    (hw : t.worklist = s.worklist) : Advances s t :=
  Or.inr ⟨by simp [gaps, hs, hc], by simp [potential, hs, hc], hw⟩

theorem Below.advances {s t : Session} (h : Below s t) : Advances s t := Or.inl h

/-- Once the measure is lower, the worklist does not matter. -/
theorem Below.of_same {s t u : Session} (h : Below s t) (hs : u.states = t.states)
    (hc : u.calls = t.calls) : Below s u := by
  unfold Below gaps potential at *
  rw [hs, hc]
  exact h

theorem Below.trans_advances {s t u : Session} (h : Below s t) (k : Advances t u) : Below s u := by
  unfold Advances Below at *
  rcases k with k | ⟨kg, kp, _⟩ <;> omega

/-! ## Small steps -/

@[simp] theorem states_note (s : Session) (setup : Setup) (e : Event) :
    (s.note setup e).states = s.states := by
  unfold note; split <;> rfl

@[simp] theorem calls_note (s : Session) (setup : Setup) (e : Event) :
    (s.note setup e).calls = s.calls := by
  unfold note; split <;> rfl

@[simp] theorem worklist_note (s : Session) (setup : Setup) (e : Event) :
    (s.note setup e).worklist = s.worklist := by
  unfold note; split <;> rfl

@[simp] theorem states_enqueue (s : Session) (position : Nat) :
    (s.enqueue position).states = s.states := by
  unfold enqueue; split <;> rfl

@[simp] theorem calls_enqueue (s : Session) (position : Nat) :
    (s.enqueue position).calls = s.calls := by
  unfold enqueue; split <;> rfl

@[simp] theorem states_enqueueAll (s : Session) (positions : List Nat) :
    (s.enqueueAll positions).states = s.states := by
  unfold enqueueAll
  induction positions generalizing s with
  | nil => rfl
  | cons p ps ih => rw [List.foldl_cons, ih, states_enqueue]

@[simp] theorem calls_enqueueAll (s : Session) (positions : List Nat) :
    (s.enqueueAll positions).calls = s.calls := by
  unfold enqueueAll
  induction positions generalizing s with
  | nil => rfl
  | cons p ps ih => rw [List.foldl_cons, ih, calls_enqueue]

/-- A new state fills a gap. -/
theorem below_insert_new {s : Session} {position : Nat} (state : TypeState)
    (h : s.states.slot? position = some none) :
    Below s { s with states := s.states.insert position state } := by
  have := PositionMap.vacancies_insert_vacant state h
  left
  simp only [gaps]
  omega

/-- A more general state has a lower rank. -/
theorem below_insert_merged {s : Session} {position : Nat} {old new : TypeState}
    (h : s.states.slot? position = some (some old)) (hrank : new.frame.rank < old.frame.rank) :
    Below s { s with states := s.states.insert position new } := by
  have hv := PositionMap.vacancies_insert_occupied new h
  have ht := PositionMap.total_insert_occupied (fun state : TypeState => state.frame.rank) new h
  right
  simp only [gaps, potential]
  omega

/-- Merging a frame into a state lowers its rank when it changes it. -/
theorem rank_of_merge {state merged : TypeState} {frame : Frame}
    (h : state.merge frame = .ok (true, merged)) : merged.frame.rank < state.frame.rank := by
  unfold TypeState.merge at h
  split at h
  · simp at h
  · rename_i new hnew
    simp only [Except.ok.injEq, Prod.mk.injEq, decide_eq_true_eq] at h
    obtain ⟨hne, rfl⟩ := h
    rcases Frame.rank_merge hnew with hlt | heq
    · exact hlt
    · exact absurd heq hne

theorem mergeInto_advances {s t : Session} {setup : Setup} {position : Nat} {frame : Frame}
    (h : s.mergeInto setup position frame = .ok t) : Advances s t := by
  unfold mergeInto at h
  split at h
  · simp [reject] at h
  · rename_i hslot
    simp only [Except.ok.injEq] at h
    subst h
    exact ((below_insert_new (.fresh position frame) hslot).of_same (by simp) (by simp)).advances
  · rename_i state hslot
    split at h
    · simp [reject] at h
    · simp only [Except.ok.injEq] at h
      subst h
      exact .refl s
    · rename_i merged hmerge
      simp only [Except.ok.injEq] at h
      subst h
      exact ((below_insert_merged hslot (rank_of_merge hmerge)).of_same (by simp) (by simp)).advances

/-- A chain of steps advances when each step does. -/
theorem foldlM_advances {α : Type} {f : Session → α → Attempt Session}
    (hf : ∀ s a t, f s a = .ok t → Advances s t) (as : List α) {s t : Session}
    (h : as.foldlM f s = .ok t) : Advances s t := by
  induction as generalizing s with
  | nil =>
    simp only [List.foldlM_nil, pure, Except.pure, Except.ok.injEq] at h
    subst h
    exact .refl s
  | cons a as ih =>
    rw [List.foldlM_cons] at h
    cases hstep : f s a with
    | error e => simp [hstep, bind, Except.bind] at h
    | ok u =>
      simp only [hstep, bind, Except.bind] at h
      exact (hf s a u hstep).trans (ih h)

theorem mergeHandlers_advances {s t : Session} {setup : Setup} {position : Nat} {frame : Frame}
    (h : s.mergeHandlers setup position frame = .ok t) : Advances s t := by
  refine foldlM_advances ?_ _ h
  intro s handler t hstep
  unfold mergeHandler at hstep
  simp only at hstep
  split at hstep
  · simp at hstep
  · exact mergeInto_advances hstep

theorem mergeIntoAll_advances {s t : Session} {setup : Setup} {positions : List Nat} {frame : Frame}
    (h : s.mergeIntoAll setup positions frame = .ok t) : Advances s t :=
  foldlM_advances (fun _ _ _ hstep => mergeInto_advances hstep) _ h

/-! ## Subroutines -/

/-- Noting a call lowers the measure when the call is new or its frame changed, and changes nothing
otherwise. -/
theorem recordCall_advances {s t : Session} {position entry : Nat} {frame : Frame} {isNew isChanged : Bool}
    (h : s.recordCall position entry frame = some (t, isNew, isChanged)) :
    (isNew || isChanged) = true ∧ Below s t ∨ (isNew || isChanged) = false ∧ t = s := by
  unfold recordCall at h
  split at h
  · simp at h
  · rename_i hslot
    simp only [Option.some.injEq, Prod.mk.injEq] at h
    obtain ⟨rfl, rfl, rfl⟩ := h
    have hv := PositionMap.vacancies_insert_vacant (⟨entry, frame⟩ : CallSite) hslot
    refine Or.inl ⟨rfl, Or.inl ?_⟩
    simp only [gaps]
    omega
  · rename_i call hslot
    simp only at h
    split at h
    · simp only [Option.some.injEq, Prod.mk.injEq] at h
      obtain ⟨rfl, rfl, rfl⟩ := h
      exact Or.inr ⟨rfl, rfl⟩
    · rename_i hne
      simp only [Option.some.injEq, Prod.mk.injEq] at h
      obtain ⟨rfl, rfl, rfl⟩ := h
      have hrank : (call.frame.absorb frame).rank < call.frame.rank := by
        rcases call.frame.rank_absorb frame with hlt | heq
        · exact hlt
        · exact absurd heq hne
      have hv := PositionMap.vacancies_insert_occupied { call with frame := call.frame.absorb frame } hslot
      have ht := PositionMap.total_insert_occupied (fun call : CallSite => call.frame.rank)
        { call with frame := call.frame.absorb frame } hslot
      simp only at ht
      refine Or.inl ⟨rfl, Or.inr ?_⟩
      simp only [gaps, potential]
      omega

theorem interpretJsr_advances {s t : Session} {setup : Setup} {i : Instruction} {entry : Nat}
    {frame : Frame} (h : s.interpretJsr setup i entry frame = .ok t) : Advances s t := by
  unfold interpretJsr at h
  split at h
  · simp [reject] at h
  · rename_i u isNew isChanged hcall
    simp only at h
    split at h
    · simp at h
    · rename_i start registry hentry
      split at h
      · simp at h
      · rename_i v hmerge
        have hmid : Advances u v := by
          refine .trans ?_ (mergeInto_advances hmerge)
          exact advances_of_same rfl rfl rfl
        rcases recordCall_advances hcall with ⟨hflag, hbelow⟩ | ⟨hflag, rfl⟩
        · simp only [hflag, if_true, Except.ok.injEq] at h
          subst h
          exact ((hbelow.trans_advances hmid).of_same (by simp) (by simp)).advances
        · simp only [hflag, Bool.false_eq_true, if_false, Except.ok.injEq] at h
          subst h
          exact hmid

theorem returnTo_advances {s t : Session} {setup : Setup} {i : Instruction} {index : UInt16}
    {entry : Nat} {frame : Frame} {accessed : Nat → Bool} {call : Nat × CallSite}
    (h : returnTo setup i index entry frame accessed s call = .ok t) : Advances s t := by
  unfold returnTo at h
  simp only at h
  split at h
  · simp [reject] at h
  · split at h
    · simp [reject] at h
    · split at h
      · simp [reject] at h
      · refine .trans ?_ (mergeInto_advances h)
        exact advances_of_same (by simp) (by simp) (by simp)

theorem interpretRet_advances {s t : Session} {setup : Setup} {i : Instruction} {index : UInt16}
    {frame : Frame} (h : s.interpretRet setup i index frame = .ok t) : Advances s t := by
  unfold interpretRet at h
  split at h
  · simp [reject] at h
  · split at h
    · simp at h
    · split at h
      · simp [reject] at h
      · split at h
        · simp [reject] at h
        · simp only at h
          refine .trans ?_ (foldlM_advances (fun _ _ _ hstep => returnTo_advances hstep) _ h)
          exact advances_of_same rfl rfl rfl
  · simp [reject] at h

/-! ## Straight-line code -/

theorem interpretPlain_advances {s t : Session} {setup : Setup} {i : Instruction} {op : Op}
    {frame : Frame} {next : Option Frame}
    (h : s.interpretPlain setup i op frame = .ok (t, next)) : Advances s t := by
  unfold interpretPlain at h
  simp only at h
  split at h
  · simp at h
  · split at h
    · split at h
      · simp at h
      · rename_i hmerge
        simp only [Except.ok.injEq, Prod.mk.injEq] at h
        obtain ⟨rfl, _⟩ := h
        refine .trans (advances_of_same ?_ ?_ ?_) (mergeHandlers_advances hmerge) <;>
          (simp only; split <;> rfl)
    · simp only [Except.ok.injEq, Prod.mk.injEq] at h
      obtain ⟨rfl, _⟩ := h
      refine advances_of_same ?_ ?_ ?_ <;> (simp only; split <;> rfl)

theorem interpretOne_advances {s t : Session} {setup : Setup} {i : Instruction} {frame : Frame}
    {next : Option Frame} (h : s.interpretOne setup i frame = .ok (t, next)) : Advances s t := by
  unfold interpretOne at h
  simp only at h
  split at h
  · simp at h
  · rename_i u hhandlers
    have hu : Advances s u := by
      refine .trans ?_ (mergeHandlers_advances hhandlers)
      exact advances_of_same (by simp) (by simp) (by simp)
    refine hu.trans ?_
    split at h
    · exact interpretPlain_advances h
    · split at h
      · simp at h
      · split at h
        · simp at h
        · rename_i hmerge
          simp only [Except.ok.injEq, Prod.mk.injEq] at h
          obtain ⟨rfl, _⟩ := h
          exact mergeInto_advances hmerge
    · split at h
      · simp at h
      · split at h
        · simp at h
        · rename_i hmerge
          simp only [Except.ok.injEq, Prod.mk.injEq] at h
          obtain ⟨rfl, _⟩ := h
          exact mergeIntoAll_advances hmerge
    · split at h
      · simp at h
      · rename_i hjsr
        simp only [Except.ok.injEq, Prod.mk.injEq] at h
        obtain ⟨rfl, _⟩ := h
        exact interpretJsr_advances hjsr
    · split at h
      · simp at h
      · rename_i hret
        simp only [Except.ok.injEq, Prod.mk.injEq] at h
        obtain ⟨rfl, _⟩ := h
        refine .trans ?_ (interpretRet_advances hret)
        exact advances_of_same rfl rfl rfl

theorem interpret_advances {setup : Setup} {origin index : Nat} {frame : Frame} {s t : Session}
    (h : interpret setup origin index frame s = .ok t) : Advances s t := by
  fun_induction interpret setup origin index frame s with
  | case1 => simp [reject] at h
  | case2 => exact mergeInto_advances h
  | case3 => simp at h
  | case4 index frame s i _ _ u hone =>
    simp only [Except.ok.injEq] at h
    subst h
    exact interpretOne_advances hone
  | case5 => simp [reject] at h
  | case6 index frame s i _ _ u next hone _ ih =>
    exact (interpretOne_advances hone).trans (ih h)

/-- A round advances. -/
theorem round_advances {s t : Session} {setup : Setup} {position : Nat}
    (h : s.round setup position = .ok t) : Advances s t := by
  unfold round at h
  have hat : ∀ {u : Session} {frame : Frame}, u.interpretAt setup position frame = .ok t →
      Advances u t := by
    intro u frame hu
    unfold interpretAt at hu
    split at hu
    · simp [reject] at hu
    · exact interpret_advances hu
  split at h
  · rename_i state hstate
    simp only at h
    refine .trans ?_ (hat h)
    refine Or.inr ⟨?_, ?_, rfl⟩
    · have hslot : s.states.slot? position = some (some state) := by
        simpa [PositionMap.get?, Option.join_eq_some_iff] using hstate
      simp only [gaps, PositionMap.vacancies_insert_occupied _ hslot]
    · have hslot : s.states.slot? position = some (some state) := by
        simpa [PositionMap.get?, Option.join_eq_some_iff] using hstate
      have ht := PositionMap.total_insert_occupied (fun state : TypeState => state.frame.rank)
        { state with visited := true } hslot
      simp only at ht
      simp only [potential]
      omega
  · exact hat h
  · simp only [Except.ok.injEq] at h
    subst h
    exact .refl s

end Session

end Bytecode
