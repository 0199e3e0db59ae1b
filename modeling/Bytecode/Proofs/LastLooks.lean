import Bytecode.Proofs.Recording
import Bytecode.Proofs.RegularSessions
import Bytecode.Proofs.ReturnBindings

/-!
# The last look at every instruction

The subroutines active at an instruction are read off after the analysis, in one pass over the code.  Here they are
compared with the looks that the analysis took, as it records them.

* `Session.looksAt`, `Method.looksAt`: the frames with which an instruction was looked at;
* `Session.During.looksAt_eq`: one look adds its own frame, and nothing else tells of a look;
* `Session.Comes`: a frame comes from the state that its run starts with, unless that has to be looked at again;
* `Inference.Passes.told`: the last look at every instruction comes from a state, at every point of the analysis;
* `Settled.getLast?_looksAt`: so the last look of all has the frame that is found by running the code again;
* `active_at_last_look`: the subroutines of that frame are the active ones, and those of the state in front.
-/

namespace Bytecode

/-- The frame with which an instruction is looked at, if the event tells of a look at a position. -/
def Event.lookAt? (position : Nat) : Event → Option Frame
  | .interpreting p _ frame => if p = position then some frame else none
  | _ => none

/-- The frames with which the instruction at a position is looked at when the method is verified, in order. -/
def Method.looksAt (method : Method) (position : Nat) : List Frame :=
  (Inference.verify true method).events.filterMap (Event.lookAt? position)

namespace Session

variable {setup : Setup} {s t u : Session} {i : Instruction} {frame : Frame}

/-- The frames with which the instruction at a position was looked at, the latest first. -/
def looksAt (s : Session) (position : Nat) : List Frame := s.events.filterMap (Event.lookAt? position)

/-! ## What tells of no look -/

theorem looksAt_congr (h : t.events = s.events) : t.looksAt = s.looksAt := by
  funext position
  rw [looksAt, h, looksAt]

theorem looksAt_note (s : Session) (setup : Setup) {e : Event} (he : ∀ position, e.lookAt? position = none) :
    (s.note setup e).looksAt = s.looksAt := by
  funext position
  unfold note
  split
  · exact List.filterMap_cons_none (he position)
  · rfl

theorem looksAt_enqueue (s : Session) (position : Nat) : (s.enqueue position).looksAt = s.looksAt := by
  rw [enqueue_eq]
  rfl

theorem looksAt_mergeInto {position : Nat} (h : s.mergeInto setup position frame = .ok t) : t.looksAt = s.looksAt := by
  obtain ⟨u, rfl, -, -, rfl⟩ | ⟨st, merged, u, rfl, -, -, ⟨-, rfl⟩ | rfl⟩ := mergeInto_eq_ok h
  · rw [looksAt_enqueue, ← s.looksAt_note setup (e := .newState position frame) fun _ => rfl]
    rfl
  · rfl
  · rw [looksAt_enqueue, ← s.looksAt_note setup (e := .mergedState position merged) fun _ => rfl]
    rfl

theorem looksAt_foldlM {α : Type} {f : Session → α → Attempt Session} {as : List α}
    (hstep : ∀ s a t, f s a = .ok t → t.looksAt = s.looksAt) (h : as.foldlM f s = .ok t) : t.looksAt = s.looksAt :=
  foldlM_keeps (P := fun u => u.looksAt = s.looksAt) (fun u a w _ hu hw => (hstep u a w hw).trans hu) rfl h

theorem looksAt_mergeHandler {handler : Handler} (h : mergeHandler setup frame s handler = .ok t) :
    t.looksAt = s.looksAt := by
  obtain ⟨caught, -, hmerge⟩ := mergeHandler_eq_ok h
  exact looksAt_mergeInto hmerge

theorem looksAt_mergeHandlers {position : Nat} (h : s.mergeHandlers setup position frame = .ok t) :
    t.looksAt = s.looksAt := by
  unfold mergeHandlers at h
  exact looksAt_foldlM (fun _ _ _ => looksAt_mergeHandler) h

theorem looksAt_interpretJsr {entry : Nat} (h : s.interpretJsr setup i entry frame = .ok t) : t.looksAt = s.looksAt := by
  obtain ⟨u, isNew, isChanged, start, registry, w, hrecord, -, hmerge, hcases⟩ := interpretJsr_eq_ok h
  have hrecorded : u.looksAt = s.looksAt := looksAt_congr (by rw [recordCall_eq hrecord])
  have hmerged : w.looksAt = s.looksAt := (looksAt_mergeInto hmerge).trans hrecorded
  obtain ⟨noted, rets, rfl, -, rfl⟩ | ⟨-, rfl⟩ := hcases
  · rw [enqueueAll_eq]
    exact (w.looksAt_note setup (e := .callSite i.position entry) fun _ => rfl).trans hmerged
  · exact hmerged

theorem looksAt_returnTo {slot : UInt16} {entry : Nat} {accessed : Nat → Bool} {call : Nat × CallSite}
    (h : returnTo setup i slot entry frame accessed s call = .ok t) : t.looksAt = s.looksAt := by
  obtain ⟨-, caller, registry, -, -, -, hmerge⟩ := returnTo_eq_ok h
  rw [looksAt_mergeInto hmerge, looksAt_note _ setup (e := .returning i.position entry caller.next) fun _ => rfl]
  rfl

theorem looksAt_executed {op : Op} {g : Frame} (hg : frame.after op (setup.context i.position) = .ok g) :
    (s.executed setup i op frame).looksAt = s.looksAt :=
  looksAt_congr (by rw [executed_eq hg])

/-- Nothing that happens after a look has begun tells of another. -/
theorem During.looksAt_eq {g : Frame} (h : During setup s i frame t g) : t.looksAt = (s.looked setup i frame).looksAt := by
  cases h with
  | handlers _ hfold => exact looksAt_foldlM (fun _ _ _ => looksAt_mergeHandler) hfold
  | executed hu _ hg => rw [looksAt_executed hg, looksAt_mergeHandlers hu]
  | stored hu _ hg _ hfold =>
    rw [looksAt_foldlM (fun _ _ _ => looksAt_mergeHandler) hfold, looksAt_executed hg, looksAt_mergeHandlers hu]
  | branched hu _ _ hmerge => rw [looksAt_mergeInto hmerge, looksAt_mergeHandlers hu]
  | selected hu _ _ _ hmerge =>
    unfold mergeIntoAll at hmerge
    rw [looksAt_foldlM (fun _ _ _ => looksAt_mergeInto) hmerge, looksAt_mergeHandlers hu]
  | recorded hu _ hrecord =>
    rw [← looksAt_mergeHandlers hu]
    exact looksAt_congr (by rw [recordCall_eq hrecord])
  | registered hu _ hrecord =>
    rw [← looksAt_mergeHandlers hu]
    exact looksAt_congr (by rw [Session.registered, recordCall_eq hrecord])
  | entered hu _ hrecord _ hmerge =>
    rw [looksAt_mergeInto hmerge, ← looksAt_mergeHandlers hu]
    exact looksAt_congr (by rw [Session.registered, recordCall_eq hrecord])
  | called hu _ hjsr => rw [looksAt_interpretJsr hjsr, looksAt_mergeHandlers hu]
  | kept hu _ =>
    rw [← looksAt_mergeHandlers hu]
    rfl
  | returned hu _ _ _ _ _ hfold =>
    rw [looksAt_foldlM (fun _ _ _ => looksAt_returnTo) hfold, ← looksAt_mergeHandlers hu]
    rfl

/-- One look adds its own frame, in front of those of the earlier looks at the instruction. -/
theorem looksAt_interpretOne (hrecording : setup.recording = true) {next : Option Frame}
    (h : s.interpretOne setup i frame = .ok (t, next)) (position : Nat) :
    t.looksAt position = if i.position = position then frame :: s.looksAt position else s.looksAt position := by
  obtain ⟨g, hduring, -⟩ := during_of_interpretOne h
  rw [hduring.looksAt_eq]
  unfold Session.looked note
  rw [if_pos hrecording]
  show List.filterMap (Event.lookAt? position) (.interpreting i.position i.mnemonic frame :: s.events) = _
  rw [List.filterMap_cons]
  by_cases hposition : i.position = position
  · simp only [Event.lookAt?, if_pos hposition]
    rfl
  · simp only [Event.lookAt?, if_neg hposition]
    rfl

/-! ## Where the last look comes from -/

/-- Control came to an instruction with a frame, along the run from a place with a state.  The run started with the frame
of the state, or the place has to be looked at again, or the analysis is on its way along the run and looks at the
instruction next or later. -/
def Comes (setup : Setup) (look : Option (Nat × Frame)) (s : Session) (index : Nat) (frame : Frame) : Prop :=
  ∃ (first : Nat) (i : Instruction) (st : TypeState) (start : Frame), setup.body.get? first = some i ∧
    s.states.get? i.position = some st ∧ setup.Carries first start index frame ∧
    (start = st.frame ∨ i.position ∈ s.worklist ∨ ∃ next g, look = some (next, g) ∧ first ≤ next ∧ next ≤ index)

variable {look : Option (Nat × Frame)} {index : Nat} {f g : Frame}

theorem Comes.mono (h : s.Comes setup look index f) (hgrows : s.Grows t) : t.Comes setup look index f := by
  obtain ⟨first, j, st, start, hj, hst, hcarries, hfrom⟩ := h
  obtain ⟨st', hst', -⟩ := hgrows.states j.position st hst
  refine ⟨first, j, st', start, hj, hst', hcarries, ?_⟩
  rcases hfrom with rfl | hmem | hpassing
  · rcases hgrows.changed j.position st' hst' with hmem | ⟨st₀, hst₀, hsame⟩
    · exact Or.inr (Or.inl hmem)
    · obtain rfl := Option.some.inj (hst.symm.trans hst₀)
      exact Or.inl hsame
  · exact Or.inr (Or.inl (hgrows.worklist hmem))
  · exact Or.inr (Or.inr hpassing)

theorem Comes.of_none (h : s.Comes setup none index f) : s.Comes setup look index f := by
  obtain ⟨first, j, st, start, hj, hst, hcarries, hfrom⟩ := h
  refine ⟨first, j, st, start, hj, hst, hcarries, hfrom.imp_right (Or.imp_right ?_)⟩
  rintro ⟨next, g, hlook, -⟩
  simp at hlook

/-- A place without a state can be taken off the worklist. -/
theorem Comes.popped (h : s.Comes setup none index f) {position : Nat} {rest : List Nat}
    (hwork : s.worklist = position :: rest) (hst : s.states.get? position = none) :
    { s with worklist := rest }.Comes setup none index f := by
  obtain ⟨first, j, st, start, hj, hst', hcarries, hfrom⟩ := h
  refine ⟨first, j, st, start, hj, hst', hcarries, hfrom.imp_right (Or.imp_left fun hmem => ?_)⟩
  rw [hwork] at hmem
  refine List.mem_of_ne_of_mem ?_ hmem
  rintro rfl
  rw [hst] at hst'
  simp at hst'

/-- The analysis is not on its way along a run any more once it has left it. -/
theorem Comes.left {k : Nat} (h : s.Comes setup (some (k, g)) index f) (hne : k ≠ index)
    (hleft : ∀ first, first ≤ k → k < index → ¬ setup.Runs first index) : s.Comes setup look index f := by
  obtain ⟨first, j, st, start, hj, hst, hcarries, hfrom⟩ := h
  refine ⟨first, j, st, start, hj, hst, hcarries, ?_⟩
  rcases hfrom with rfl | hmem | ⟨next, g', hlook, hfirst, hnext⟩
  · exact Or.inl rfl
  · exact Or.inr (Or.inl hmem)
  · obtain ⟨rfl, rfl⟩ := Prod.mk.inj (Option.some.inj hlook)
    exact absurd hcarries.runs (hleft first hfirst (Nat.lt_of_le_of_ne hnext hne))

/-- The analysis goes on along a run. -/
theorem Comes.on {k : Nat} (h : s.Comes setup (some (k, g)) index f) (hne : k ≠ index) (next : Frame) :
    s.Comes setup (some (k + 1, next)) index f := by
  obtain ⟨first, j, st, start, hj, hst, hcarries, hfrom⟩ := h
  refine ⟨first, j, st, start, hj, hst, hcarries, hfrom.imp_right (Or.imp_right ?_)⟩
  rintro ⟨k', g', hlook, hfirst, hle⟩
  obtain ⟨rfl, rfl⟩ := Prod.mk.inj (Option.some.inj hlook)
  exact ⟨k + 1, next, rfl, by omega, by omega⟩

theorem Comes.trans {last : Nat} (h : s.Comes setup none index f) (hcarries : setup.Carries index f last g) :
    s.Comes setup none last g := by
  obtain ⟨first, j, st, start, hj, hst, hcarries', hfrom⟩ := h
  refine ⟨first, j, st, start, hj, hst, hcarries'.trans hcarries, hfrom.imp_right (Or.imp_right ?_)⟩
  rintro ⟨next, g, hlook, -⟩
  simp at hlook

/-- What is recorded of looks agrees with what is known: the last look at every instruction comes from a state, and so
does the one that is next; the frames that are kept of `ret` instructions are those of the last looks at them. -/
structure Told (setup : Setup) (look : Option (Nat × Frame)) (s : Session) : Prop where
  last : ∀ index i f, setup.body.get? index = some i → (s.looksAt i.position).head? = some f →
    s.Comes setup look index f
  now : ∀ index f, look = some (index, f) → s.Comes setup none index f
  rets : ∀ p f, s.retFrames.get? p = some f → (s.looksAt p).head? = some f
  visited : ∀ p, s.visited.contains p = true → s.looksAt p ≠ []

end Session

namespace Inference

variable {setup : Setup} {code : List UInt8} {entry frame : Frame} {look : Option (Nat × Frame)} {s t : Session}
  {index : Nat} {i : Instruction} {next : Option Frame}

/-- What a look at an instruction leaves, whatever comes after it: the last look at any other instruction comes from where
it came from before. -/
theorem told_look (hp : setup.Prepared code) (hentry : entry.Fits setup) (hrecording : setup.recording = true)
    (hpasses : Passes setup entry (some (index, frame)) s) (h : s.Told setup (some (index, frame)))
    (hi : setup.body.get? index = some i) (hone : s.interpretOne setup i frame = .ok (t, next)) :
    t.Comes setup none index frame ∧
      (∀ index' j f, setup.body.get? index' = some j → (t.looksAt j.position).head? = some f →
        index' = index ∧ f = frame ∨ index ≠ index' ∧ t.Comes setup (some (index, frame)) index' f) ∧
      (∀ p f, t.retFrames.get? p = some f → (t.looksAt p).head? = some f) ∧
      ∀ p, t.visited.contains p = true → t.looksAt p ≠ [] := by
  have hlooksAt := Session.looksAt_interpretOne hrecording hone
  obtain ⟨hlooks, -⟩ := hpasses.looksAt hp hentry hi hone
  obtain ⟨hgrows, ⟨-, -, hrecalls⟩, -⟩ := (hpasses.keeps hp hentry).look hp hpasses hi hone
  refine ⟨(h.now index frame rfl).mono hgrows, ?_, ?_, ?_⟩
  · intro index' j f hj hhead
    rw [hlooksAt] at hhead
    by_cases hposition : i.position = j.position
    · rw [if_pos hposition] at hhead
      exact Or.inl ⟨hp.tiles.index_eq hj hi hposition.symm, (Option.some.inj hhead).symm⟩
    · rw [if_neg hposition] at hhead
      refine Or.inr ⟨?_, (h.last index' j f hj hhead).mono hgrows⟩
      rintro rfl
      obtain rfl := Option.some.inj (hi.symm.trans hj)
      exact hposition rfl
  · intro p f hf
    rw [hlooksAt]
    by_cases hposition : i.position = p
    · -- only a `ret` has a frame kept of it, and this look keeps its own
      subst hposition
      obtain ⟨index', j, slot, hj, hposition', hflow, -⟩ := hrecalls i.position f hf
      obtain rfl := hp.tiles.index_eq hj hi hposition'
      obtain rfl := Option.some.inj (hi.symm.trans hj)
      have hkept := hlooks.handled.flow
      unfold Session.FlowHandled at hkept
      simp only [hflow] at hkept
      rw [if_pos rfl, List.head?_cons, ← hkept.1, hf]
    · rw [if_neg hposition]
      rcases hlooks.retFrames p with hsame | ⟨rfl, -⟩
      · exact h.rets p f (hsame ▸ hf)
      · exact absurd rfl hposition
  · intro p hvisited
    rw [hlooksAt]
    split
    · simp
    · rename_i hposition
      rcases hlooks.visited p hvisited with hold | rfl
      · exact h.visited p hold
      · exact absurd rfl hposition

theorem told_enter (h : (Session.start setup.body.codeLength setup.method.code.maxLocals.toNat).mergeInto setup 0 entry
    = .ok s) : s.Told setup none := by
  have hnone : ∀ p, s.looksAt p = [] := by
    intro p
    rw [Session.looksAt_mergeInto h]
    rfl
  rw [Session.mergeInto_eq h] at hnone ⊢
  refine ⟨?_, by simp, ?_, ?_⟩
  · intro index i f _ hhead
    rw [hnone] at hhead
    simp at hhead
  · intro p f hf
    simp [Session.start] at hf
  · intro p hvisited
    simp [Session.start] at hvisited

/-- A round from the state of a place: all that was looked at along its run will be looked at again. -/
theorem told_state {position : Nat} {rest : List Nat} {st : TypeState} (hp : setup.Prepared code)
    (h : s.Told setup none) (hwork : s.worklist = position :: rest) (hst : s.states.get? position = some st)
    (hindex : setup.body.indexOf? position = some index) :
    { s with worklist := rest, states := s.states.insert position { st with visited := true } }.Told setup
      (some (index, st.frame)) := by
  obtain ⟨i, hi, rfl⟩ := hp.tiles.indexOf?_eq_some_iff.mp hindex
  have hown : (s.states.insert i.position { st with visited := true }).get? i.position = some { st with visited := true } :=
    PositionMap.get?_insert_self _ (PositionMap.lt_bound_of_get? hst)
  refine ⟨?_, ?_, h.rets, h.visited⟩
  · intro index' j f hj hhead
    obtain ⟨first, k, st', start, hk, hst', hcarries, hfrom⟩ := h.last index' j f hj hhead
    by_cases hposition : i.position = k.position
    · obtain rfl := hp.tiles.index_eq hk hi hposition.symm
      obtain rfl := Option.some.inj (hi.symm.trans hk)
      exact ⟨first, i, _, start, hi, hown, hcarries,
        Or.inr (Or.inr ⟨first, st.frame, rfl, Nat.le_refl _, hcarries.runs.le⟩)⟩
    · refine ⟨first, k, st', start, hk, (PositionMap.get?_insert_ne _ _ hposition).trans hst', hcarries, ?_⟩
      rcases hfrom with rfl | hmem | ⟨next, g, hlook, -⟩
      · exact Or.inl rfl
      · rw [hwork] at hmem
        exact Or.inr (Or.inl (List.mem_of_ne_of_mem (Ne.symm hposition) hmem))
      · simp at hlook
  · intro index' f hlook
    obtain ⟨rfl, rfl⟩ := Prod.mk.inj (Option.some.inj hlook)
    exact ⟨index, i, _, st.frame, hi, hown, .refl index st.frame, Or.inl rfl⟩

theorem Passes.told (hp : setup.Prepared code) (hentry : entry.Fits setup) (hrecording : setup.recording = true)
    (h : Passes setup entry look s) : s.Told setup look := by
  induction h with
  | enter h => exact told_enter h
  | state _ hwork hst hindex ih => exact told_state hp ih hwork hst hindex
  | @ret s position index rest frame _ hwork hst hframe hindex ih =>
    obtain ⟨i, hi, rfl⟩ := hp.tiles.indexOf?_eq_some_iff.mp hindex
    refine ⟨fun index' j f hj hhead => ((ih.last index' j f hj hhead).popped hwork hst).of_none, ?_, ih.rets, ih.visited⟩
    -- the frame that is kept is that of the last look
    intro index' f hlook
    obtain ⟨rfl, rfl⟩ := Prod.mk.inj (Option.some.inj hlook)
    exact (ih.last index i frame hi (ih.rets i.position frame hframe)).popped hwork hst
  | nothing _ hwork hst _ ih =>
    exact ⟨fun index j f hj hhead => (ih.last index j f hj hhead).popped hwork hst, by simp, ih.rets, ih.visited⟩
  | @left s t index i frame hpasses hi hone ih =>
    obtain ⟨hown, hlast, hrets, hvisited⟩ := told_look hp hentry hrecording hpasses ih hi hone
    refine ⟨?_, by simp, hrets, hvisited⟩
    intro index' j f hj hhead
    rcases hlast index' j f hj hhead with ⟨rfl, rfl⟩ | ⟨hne, hcomes⟩
    · exact hown
    · refine hcomes.left hne ?_
      -- the instruction does not run on, so no run goes past it
      intro first hfirst hlt hruns
      obtain ⟨hlooks, hnext⟩ := hpasses.looksAt hp hentry hi hone
      obtain ⟨i', hi', hon⟩ := hruns.on index hfirst hlt
      obtain rfl := Option.some.inj (hi.symm.trans hi')
      obtain ⟨g, hg⟩ := hlooks.handled.onward_of_runsOn hon
      rw [hg] at hnext
      simp at hnext
  | @met s t u index i i' frame next hpasses hi hone hi' hmerged hmerge ih =>
    obtain ⟨hown, hlast, hrets, hvisited⟩ := told_look hp hentry hrecording hpasses ih hi hone
    obtain ⟨hstep, -⟩ := hpasses.merged hp hentry hi hone hmerged hmerge
    have hhead := (hpasses.isHead_iff hp hentry hi hone).mpr hmerged
    have hsame := Session.looksAt_mergeInto hmerge
    refine ⟨?_, by simp, ?_, ?_⟩
    · intro index' j f hj hlooked
      rw [hsame] at hlooked
      rcases hlast index' j f hj hlooked with ⟨rfl, rfl⟩ | ⟨hne, hcomes⟩
      · exact hown.mono hstep.toGrows
      · refine (hcomes.left hne ?_).mono hstep.toGrows
        -- the next instruction is a head, so no run goes past it
        intro first hfirst hlt hruns
        exact hruns.inside (index + 1) i' (by omega) hlt hi' hhead
    · rw [hsame, hstep.retFrames]
      exact hrets
    · rw [hsame, hstep.sameVisited]
      exact hvisited
  | @on s t index i i' frame next hpasses hi hone hi' hmerged ih =>
    obtain ⟨hown, hlast, hrets, hvisited⟩ := told_look hp hentry hrecording hpasses ih hi hone
    obtain ⟨-, hnext⟩ := hpasses.looksAt hp hentry hi hone
    have hhead : ¬ setup.IsHead i'.position := by simp [hpasses.isHead_iff hp hentry hi hone, hmerged]
    refine ⟨?_, ?_, hrets, hvisited⟩
    · intro index' j f hj hlooked
      rcases hlast index' j f hj hlooked with ⟨rfl, rfl⟩ | ⟨hne, hcomes⟩
      · exact hown.of_none
      · exact hcomes.on hne next
    · intro index' f hlook
      obtain ⟨rfl, rfl⟩ := Prod.mk.inj (Option.some.inj hlook)
      exact hown.trans (.step hi hnext.symm hi' hhead (.refl _ _))

end Inference

/-! ## After the last round -/

theorem Setup.Alike.carries {setup setup' : Setup} (h : setup.Alike setup') {first last : Nat} {f g : Frame}
    (hcarries : setup'.Carries first f last g) : setup.Carries first f last g := by
  induction hcarries with
  | refl index frame => exact .refl index frame
  | step hi hnext hi' hhead _ ih =>
    rw [h.body] at hi hi'
    rw [h.context] at hnext
    refine .step hi hnext hi' ?_ ih
    unfold Setup.IsHead at hhead ⊢
    rwa [h.mergePoints] at hhead

/-- What is told of a method are the looks of the analysis, between events of other kinds. -/
theorem Method.looksAt_eq {method : Method} {setup : Setup} {entry : Frame} {t : Session}
    (hprepare : Inference.prepare false method = .ok (setup, entry))
    (hanalyse : Inference.analyse { setup with recording := true } entry = .ok t) (position : Nat) :
    method.looksAt position = (t.looksAt position).reverse := by
  have hdecoding : ∀ instructions, (Inference.decodingEvents instructions).filterMap (Event.lookAt? position) = [] := by
    intro instructions
    unfold Inference.decodingEvents
    rw [List.filterMap_map, List.filterMap_eq_nil_iff]
    intro i _
    rfl
  unfold Method.looksAt Inference.verify
  rw [Inference.prepare_map true, hprepare]
  dsimp only [Except.map]
  rw [hanalyse]
  dsimp only
  rw [if_pos rfl, if_pos rfl, List.filterMap_append, List.filterMap_append, List.filterMap_reverse,
    List.filterMap_cons_none rfl, hdecoding, List.nil_append, List.filterMap_cons_none rfl, List.filterMap_nil, List.append_nil]
  rfl

namespace Settled

variable {method : Method} {v : Verified} {setup : Setup} {s : Session} {index : Nat} {i : Instruction} {f : Frame}

/-- Recording the analysis of an accepted method tells of its looks, and knows the same in the end. -/
theorem recorded (h : Settled method v setup s) :
    ∃ t, s.Alike t ∧ t.Told { setup with recording := true } none ∧
      ∀ position, method.looksAt position = (t.looksAt position).reverse := by
  obtain ⟨entry, -, hfits, hprepare, hanalyse⟩ := h.explores
  have hsetup : setup.Alike { setup with recording := true } := ⟨rfl, rfl, rfl, rfl⟩
  have halike := Inference.analyse_alike hsetup entry
  rw [hanalyse] at halike
  cases hrecorded : Inference.analyse { setup with recording := true } entry with
  | error e =>
    rw [hrecorded] at halike
    cases halike
  | ok t =>
    rw [hrecorded] at halike
    cases halike with
    | ok halike =>
      have hp : Setup.Prepared { setup with recording := true } method.code.bytes :=
        ⟨h.prepared.tiles, h.prepared.targets, h.prepared.continuations, h.prepared.handlers, h.prepared.caught⟩
      have hentry : entry.Fits { setup with recording := true } :=
        ⟨hfits.length, hfits.paired, hfits.nodup, fun hplain => hfits.values ⟨hplain.loadable, hplain.jsr, hplain.ret⟩⟩
      have htold := (Inference.passes_analyse hp hrecorded).told hp hentry rfl
      exact ⟨t, halike, htold, Method.looksAt_eq hprepare hrecorded⟩

theorem replays_of_carries (h : Settled method v setup s) {first last : Nat} {g : Frame}
    (hcarries : setup.Carries first f last g) (hfirst : v.Replays method first f) : v.Replays method last g := by
  induction hcarries with
  | refl => exact hfirst
  | step hi hnext hi' hhead _ ih =>
    rw [← h.body_eq] at hi hi'
    rw [Session.onward_eq_some_iff, h.placeOf_eq] at hnext
    rw [h.isHead_succ_iff hi hi'] at hhead
    exact ih (.on hfirst hi hnext.1 hnext.2 hi' hhead)

/-- The last look at an instruction had the frame right before it. -/
theorem getLast?_looksAt (h : Settled method v setup s) (hi : v.body.get? index = some i) :
    (method.looksAt i.position).getLast? = v.frameBefore? method index := by
  obtain ⟨t, halike, htold, hlooks⟩ := h.recorded
  rw [hlooks, List.getLast?_reverse]
  cases hhead : (t.looksAt i.position).head? with
  | none =>
    -- an instruction that was never looked at was not visited
    rw [List.head?_eq_none_iff] at hhead
    refine (Option.not_isSome_iff_eq_none.mp fun hsome => htold.visited i.position ?_ hhead).symm
    rw [halike.visited, ← h.visited_eq]
    exact (h.visited_iff hi).mpr hsome
  | some f =>
    obtain ⟨first, j, st, start, hj, hst, hcarries, hfrom⟩ := htold.last index i f (h.get?_setup hi) hhead
    rw [halike.worklist, h.idle] at hfrom
    obtain rfl : start = st.frame := by simpa using hfrom
    have hsetup : setup.Alike { setup with recording := true } := ⟨rfl, rfl, rfl, rfl⟩
    have hj' : v.body.get? first = some j := by
      rw [h.body_eq]
      exact hj
    rw [halike.states, ← h.states_eq] at hst
    exact (h.frameBefore?_of_replays (h.replays_of_carries (hsetup.carries hcarries) (.state hj' hst))).symm

end Settled

/-! ## Straight segments -/

/-- Straight code from one instruction to another: each falls through to the next, and none behind the first is a merge
point. -/
structure Verified.Segment (v : Verified) (method : Method) (first last : Nat) : Prop where
  le : first ≤ last
  on : ∀ index, first ≤ index → index < last →
    ∃ i, v.body.get? index = some i ∧ (method.placeOf i).fallsThrough = true
  inside : ∀ index i, first < index → index ≤ last → v.body.get? index = some i → ¬ v.IsMergePoint method i.position

namespace Settled

variable {method : Method} {v : Verified} {setup : Setup} {s : Session} {index first last : Nat} {i : Instruction}
  {f : Frame}

theorem runs_of_segment (h : Settled method v setup s) (hsegment : v.Segment method first last) : setup.Runs first last := by
  refine ⟨hsegment.le, ?_, ?_⟩
  · intro index hfirst hlast
    obtain ⟨i, hi, hfalls⟩ := hsegment.on index hfirst hlast
    exact ⟨i, h.get?_setup hi, hfalls⟩
  · intro index i hfirst hlast hi hhead
    rw [← h.body_eq] at hi
    obtain ⟨index, rfl⟩ : ∃ k, index = k + 1 := ⟨index - 1, by omega⟩
    obtain ⟨j, hj, -⟩ := hsegment.on index (by omega) (by omega)
    exact hsegment.inside (index + 1) i hfirst hlast hi ((h.isHead_succ_iff hj hi).mp hhead)

/-- The code that runs on from a state has the subroutines of the state active. -/
theorem segment_of_replays (h : Settled method v setup s) (hreplays : v.Replays method index f) :
    ∃ first j st, v.body.get? first = some j ∧ v.states.get? j.position = some st ∧ v.Segment method first index ∧
      f.nesting = st.frame.nesting := by
  induction hreplays with
  | @state index i st hi hst =>
    refine ⟨index, i, st, hi, hst, ⟨Nat.le_refl _, ?_, ?_⟩, rfl⟩
    · intro k hfirst hlast
      omega
    · intro k j hfirst hlast
      omega
  | @on index i i' f g _ hi hfalls hresult hi' hmerge ih =>
    obtain ⟨first, j, st, hj, hst, hsegment, hnesting⟩ := ih
    have honward : i.onward (setup.context i.position) f = some g := by
      rw [Session.onward_eq_some_iff, h.placeOf_eq]
      exact ⟨hfalls, hresult⟩
    have hshape := Instruction.onward_effect Exec.sameShape_effect honward
    refine ⟨first, j, st, hj, hst, ⟨Nat.le_succ_of_le hsegment.le, ?_, ?_⟩, hshape.2.trans hnesting⟩
    · intro k hfirst hlast
      rcases Nat.lt_or_eq_of_le (Nat.le_of_lt_succ hlast) with hlt | rfl
      · exact hsegment.on k hfirst hlt
      · exact ⟨i, hi, hfalls⟩
    · intro k j' hfirst hlast hj'
      rcases Nat.lt_or_eq_of_le hlast with hlt | rfl
      · exact hsegment.inside k j' hfirst (Nat.le_of_lt_succ hlt) hj'
      · obtain rfl := Option.some.inj (hi'.symm.trans hj')
        exact hmerge

/-- The subroutines active at an instruction are those of the state that the straight code up to it starts with. -/
theorem activeAt?_iff_segment (h : Settled method v setup s) (hi : v.body.get? index = some i) {nesting : Nesting} :
    v.activeAt? index = some nesting ↔ ∃ first j st, v.body.get? first = some j ∧
      v.states.get? j.position = some st ∧ v.Segment method first index ∧ st.frame.nesting = nesting := by
  rw [h.activeAt?_eq hi]
  constructor
  · intro hactive
    obtain ⟨f, hf, rfl⟩ := Option.map_eq_some_iff.mp hactive
    obtain ⟨first, j, st, hj, hst, hsegment, hnesting⟩ := h.segment_of_replays (h.replays_iff.mpr hf)
    exact ⟨first, j, st, hj, hst, hsegment, hnesting.symm⟩
  · rintro ⟨first, j, st, hj, hst, hsegment, rfl⟩
    have hruns := h.runs_of_segment hsegment
    have hst' := hst
    rw [h.states_eq] at hst'
    have hfirst := Option.isSome_of_eq_some (h.frameBefore?_of_state hj hst')
    obtain ⟨f, hf⟩ := Option.isSome_iff_exists.mp (h.frameBefore?_of_runs hruns hfirst)
    obtain ⟨other, k, st₁, hk, hst₁, hsegment', hnesting⟩ := h.segment_of_replays (h.replays_iff.mpr hf)
    -- only one segment with a state at its start ends here
    have hhead := (h.wellFormed.states _ st hst').2
    have hhead' := (h.wellFormed.states _ st₁ (h.states_eq ▸ hst₁)).2
    obtain rfl := hruns.first_eq (h.runs_of_segment hsegment') (h.get?_setup hj) hhead (h.get?_setup hk) hhead'
    obtain rfl := Option.some.inj (hj.symm.trans hk)
    obtain rfl := Option.some.inj (hst.symm.trans hst₁)
    rw [hf, Option.map_some, hnesting]

end Settled

/-- **The subroutines active at an instruction are those of the last look at it.**  There are some exactly if the
instruction was looked at.  The last look had the frame with which the code from the final state in front comes to the
instruction, so its subroutines are those of the state that the straight segment with the instruction starts with. -/
theorem active_at_last_look {method : Method} {v : Verified} (hfits : method.code.bytes.length < 2 ^ 64)
    (hverify : method.verify = .ok v) {index : Nat} {i : Instruction} (hi : v.body.get? index = some i) :
    ((v.activeAt? index).isSome ↔ method.looksAt i.position ≠ []) ∧
      v.activeAt? index = (method.looksAt i.position).getLast?.map Frame.nesting ∧
      (∀ frame, (method.looksAt i.position).getLast? = some frame ↔ v.Replays method index frame) ∧
      ∀ nesting, v.activeAt? index = some nesting ↔ ∃ first j st, v.body.get? first = some j ∧
        v.states.get? j.position = some st ∧ v.Segment method first index ∧ st.frame.nesting = nesting := by
  obtain ⟨setup, s, h⟩ := Method.settled hfits hverify
  have hlast := h.getLast?_looksAt hi
  have hactive : v.activeAt? index = (method.looksAt i.position).getLast?.map Frame.nesting := by
    rw [hlast, h.activeAt?_eq hi]
  refine ⟨?_, hactive, ?_, fun nesting => h.activeAt?_iff_segment hi⟩
  · rw [hactive, Option.isSome_map, List.getLast?_isSome]
  · intro frame
    rw [hlast]
    exact h.replays_iff.symm

/-- A subroutine that is called from another first and then from the method, with an instruction that is never reached:

    0 jsr 8;  3 jsr 14;  6 return;  7 nop;  8 astore_0;  9 jsr 14;  12 ret 0;  14 astore_1;  15 ret 1
-/
def calledInsideFirst : Method :=
  Method.bare ⟨[], none⟩ 1 2
    [0xa8, 0x00, 0x08, 0xa8, 0x00, 0x0b, 0xb1, 0x00, 0x4b, 0xa8, 0x00, 0x05, 0xa9, 0x00, 0x4c, 0xa9, 0x01]

/-- The `ret` of the inner subroutine has no state of its own.  It was last looked at with only that subroutine active,
though it is first called from the other; the instruction behind the end of the method was never looked at. -/
theorem calledInsideFirst_last_look :
    ∃ v dead ret frame, calledInsideFirst.verify = .ok v ∧ v.body.get? 3 = some dead ∧ v.body.get? 8 = some ret ∧
      ret.flow = .ret 1 ∧ v.states.get? ret.position = none ∧ calledInsideFirst.looksAt dead.position = [] ∧
      (calledInsideFirst.looksAt ret.position).getLast? = some frame ∧ frame.nesting = [14] ∧
      v.Replays calledInsideFirst 8 frame := by
  obtain ⟨v, hverify, htest⟩ := @Method.exists_of_within calledInsideFirst 30
    (fun v => (v.body.get? 3).isSome && v.activeAt? 3 = none && (v.body.get? 8).any (fun i => i.flow = .ret 1 &&
      (v.states.get? i.position).isNone) && v.activeAt? 8 = some [14]) (by decide +kernel)
  simp only [Bool.and_eq_true, Option.any_eq_true, decide_eq_true_eq, Option.isNone_iff_eq_none] at htest
  obtain ⟨⟨⟨hdead, hnone⟩, ret, hret, hflow, hstate⟩, hactive⟩ := htest
  obtain ⟨dead, hdead⟩ := Option.isSome_iff_exists.mp hdead
  obtain ⟨hlooked, -⟩ := active_at_last_look (by decide) hverify hdead
  obtain ⟨-, hlast, hreplays, -⟩ := active_at_last_look (by decide) hverify hret
  rw [hactive] at hlast
  obtain ⟨frame, hframe, hnesting⟩ := Option.map_eq_some_iff.mp hlast.symm
  refine ⟨v, dead, ret, frame, hverify, hdead, hret, hflow, hstate, ?_, hframe, hnesting, (hreplays frame).mp hframe⟩
  rw [hnone] at hlooked
  simpa using hlooked

end Bytecode
