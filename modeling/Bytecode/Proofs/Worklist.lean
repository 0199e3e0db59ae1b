import Bytecode.Proofs.Accounts

/-!
# The places of a session

A session has tables with a slot for every position of the code, and a worklist.  Whatever it looks at next, and
wherever it keeps a state, is the start of an instruction, and a call is kept at a `jsr` that makes it.

* `Setup.IsStart`: an instruction starts at a position;
* `Setup.Anchored`: control enters the code, and comes to handlers, at starts of instructions;
* `Session.Placed`: the tables have the size of the code, and the worklist, the states and the calls are in place;
* `Session.Grounded`: so are the subroutines and the `ret` instructions that are known;
* `Session.During.grounded`: a look at an instruction keeps all in place, from point to point;
* `Inference.Point.grounded`: so does the whole analysis.
-/

namespace Bytecode

namespace Setup

/-- An instruction starts at the position. -/
def IsStart (setup : Setup) (position : Nat) : Prop := (setup.body.indexOf? position).isSome = true

/-- Control comes into the code at the start of an instruction, from the caller as well as with an exception. -/
structure Anchored (setup : Setup) (code : List UInt8) : Prop extends setup.Prepared code where
  entry : setup.IsStart 0
  handled : ∀ h ∈ setup.handlers, setup.IsStart h.target

variable {setup : Setup} {code : List UInt8} {position index : Nat} {i : Instruction}

theorem isStart_iff (hp : setup.Prepared code) :
    setup.IsStart position ↔ ∃ index i, setup.body.get? index = some i ∧ i.position = position := by
  unfold IsStart
  rw [Option.isSome_iff_exists]
  exact exists_congr fun index => hp.tiles.indexOf?_eq_some_iff

theorem isStart_of_get? (hp : setup.Prepared code) (hi : setup.body.get? index = some i) : setup.IsStart i.position :=
  (isStart_iff hp).mpr ⟨index, i, hi, rfl⟩

theorem isStart_of_target (hp : setup.Prepared code) (hi : setup.body.get? index = some i) (ht : position ∈ i.targets) :
    setup.IsStart position :=
  hp.tiles.targets index i hi position ht

theorem IsStart.lt_length (h : setup.IsStart position) (hp : setup.Prepared code) : position < code.length := by
  obtain ⟨index, i, hi, rfl⟩ := (isStart_iff hp).mp h
  exact hp.tiles.position_lt_length hi

theorem IsStart.lt_codeLength (h : setup.IsStart position) (hp : setup.Prepared code) :
    position < setup.body.codeLength := by
  rw [hp.tiles.codeLength_eq]
  exact h.lt_length hp

end Setup

/-- Before the first round it is checked where control comes into the code. -/
theorem Inference.anchored_of_prepare {recording : Bool} {method : Method} {setup : Setup} {entry : Frame}
    (hfits : method.code.bytes.length < 2 ^ 64) (h : prepare recording method = .ok (setup, entry)) :
    setup.Anchored method.code.bytes := by
  obtain ⟨-, hp, hsize, hhandlers, -⟩ := prepare_spec hfits h
  refine ⟨hp, ?_, ?_⟩
  · obtain ⟨i, hi⟩ := Option.isSome_iff_exists.mp (Body.Laid.get?_isSome_iff.mpr hsize)
    have hzero := hp.tiles.position_zero hi
    exact hzero ▸ Setup.isStart_of_get? hp hi
  · intro handler hmem
    obtain ⟨e, -, hresolve⟩ := (mem_of_mapM hhandlers).mp hmem
    obtain ⟨-, -, hstart, -, type, -, rfl⟩ := resolveHandler_eq_ok.mp hresolve
    exact hstart

namespace Session

variable {setup : Setup} {code : List UInt8} {s t : Session} {index : Nat} {i : Instruction} {frame : Frame}

/-- The tables have a slot for every position of the code.  What is to be looked at, each place once, and what has a
state are starts of instructions, and calls stand at the instructions that make them. -/
structure Placed (setup : Setup) (s : Session) : Prop where
  sized : s.Sized setup.body.codeLength
  nodup : s.worklist.Nodup
  worklist : ∀ p ∈ s.worklist, setup.IsStart p
  states : ∀ p st, s.states.get? p = some st → setup.IsStart p
  calls : ∀ p site, s.calls.get? p = some site →
    ∃ caller, setup.body.startingAt? p = some caller ∧ caller.flow = .jsr site.entry

/-! ## Small steps -/

/-- Apart from the sizes of the tables, only the worklist, the states and the calls matter. -/
theorem Placed.congr (h : s.Placed setup) (hsized : t.Sized setup.body.codeLength) (hwork : t.worklist = s.worklist)
    (hstates : t.states = s.states) (hcalls : t.calls = s.calls) : t.Placed setup where
  sized := hsized
  nodup := hwork ▸ h.nodup
  worklist := hwork ▸ h.worklist
  states := hstates ▸ h.states
  calls := hcalls ▸ h.calls

theorem Placed.registry (h : s.Placed setup) (registry : Registry) : { s with registry }.Placed setup :=
  h.congr { h.sized with } rfl rfl rfl

theorem Placed.note (h : s.Placed setup) (e : Event) : (s.note setup e).Placed setup := by
  rw [note_eq]
  exact h.congr { h.sized with } rfl rfl rfl

theorem Placed.insertState {position : Nat} (h : s.Placed setup) (hstart : setup.IsStart position) (state : TypeState) :
    { s with states := s.states.insert position state }.Placed setup :=
  { h with
    sized := { h.sized with states := (PositionMap.bound_insert ..).trans h.sized.states }
    states := PositionMap.forall_insert h.states hstart }

/-- A place is taken off the worklist. -/
theorem Placed.pop {position : Nat} {rest : List Nat} (h : s.Placed setup) (hwork : s.worklist = position :: rest) :
    { s with worklist := rest }.Placed setup := by
  have hnodup := h.nodup
  have hstarts := h.worklist
  rw [hwork] at hnodup hstarts
  exact ⟨{ h.sized with }, hnodup.of_cons, fun p hp => hstarts p (List.mem_cons_of_mem position hp), h.states, h.calls⟩

theorem Placed.enqueue {position : Nat} (h : s.Placed setup) (hstart : setup.IsStart position) :
    (s.enqueue position).Placed setup := by
  have hwork : (s.enqueue position).worklist = Subroutine.addNew s.worklist position := by
    unfold Session.enqueue Subroutine.addNew
    split <;> rfl
  rw [enqueue_eq, hwork]
  refine ⟨{ h.sized with }, Subroutine.nodup_addNew h.nodup position, ?_, h.states, h.calls⟩
  intro p hp
  rcases Subroutine.mem_addNew.mp hp with rfl | hold
  · exact hstart
  · exact h.worklist p hold

theorem Placed.enqueueAll {positions : List Nat} (h : s.Placed setup) (hstarts : ∀ p ∈ positions, setup.IsStart p) :
    (s.enqueueAll positions).Placed setup := by
  unfold Session.enqueueAll
  induction positions generalizing s with
  | nil => exact h
  | cons p rest ih =>
    exact ih (h.enqueue (hstarts p List.mem_cons_self)) fun q hq => hstarts q (List.mem_cons_of_mem p hq)

/-! ## Parts of a look -/

theorem mergeInto_placed {position : Nat} (h : s.Placed setup) (hstart : setup.IsStart position)
    (hmerge : s.mergeInto setup position frame = .ok t) : t.Placed setup := by
  obtain ⟨u, rfl, -, -, rfl⟩ | ⟨st, merged, u, rfl, -, -, ⟨-, rfl⟩ | rfl⟩ := mergeInto_eq_ok hmerge
  · exact ((h.note _).insertState hstart _).enqueue hstart
  · exact h
  · exact ((h.note _).insertState hstart _).enqueue hstart

theorem mergeIntoAll_placed {positions : List Nat} (h : s.Placed setup) (hstarts : ∀ p ∈ positions, setup.IsStart p)
    (hmerge : s.mergeIntoAll setup positions frame = .ok t) : t.Placed setup := by
  refine foldlM_keeps ?_ h hmerge
  intro s p t hp h hmerge
  exact mergeInto_placed h (hstarts p hp) hmerge

theorem mergeHandler_placed {handler : Handler} (h : s.Placed setup) (hstart : setup.IsStart handler.target)
    (hmerge : mergeHandler setup frame s handler = .ok t) : t.Placed setup := by
  obtain ⟨caught, -, hmerge⟩ := mergeHandler_eq_ok hmerge
  exact mergeInto_placed h hstart hmerge

/-- Handlers that cover a position, up to one of them, are merged into. -/
theorem foldlM_mergeHandler_placed {position : Nat} {front rest : List Handler} (ha : setup.Anchored code)
    (h : s.Placed setup) (hcover : (setup.handlers.filter fun h => h.covers position) = front ++ rest)
    (hfold : front.foldlM (mergeHandler setup frame) s = .ok t) : t.Placed setup := by
  refine foldlM_keeps ?_ h hfold
  intro s handler t hmem h hmerge
  have hfilter : handler ∈ setup.handlers.filter fun h => h.covers position :=
    hcover ▸ List.mem_append_left rest hmem
  exact mergeHandler_placed h (ha.handled handler (List.mem_filter.mp hfilter).1) hmerge

theorem mergeHandlers_placed {position : Nat} (ha : setup.Anchored code) (h : s.Placed setup)
    (hmerge : s.mergeHandlers setup position frame = .ok t) : t.Placed setup :=
  foldlM_mergeHandler_placed ha h (List.append_nil _).symm hmerge

theorem Placed.looked (h : s.Placed setup) (i : Instruction) (frame : Frame) :
    (s.looked setup i frame).Placed setup := by
  refine Placed.note ?_ _
  exact h.congr { h.sized with visited := (PositionSet.size_insert ..).trans h.sized.visited } rfl rfl rfl

theorem Placed.executed (h : s.Placed setup) (i : Instruction) (op : Op) (frame : Frame) :
    (s.executed setup i op frame).Placed setup := by
  unfold Session.executed
  dsimp only
  split
  · refine h.congr ?_ rfl rfl rfl
    exact { h.sized with returnStores := (PositionSet.size_insert ..).trans h.sized.returnStores }
  · exact h.registry _

/-- The frame at a `ret` is kept. -/
theorem Placed.keepRet (h : s.Placed setup) (i : Instruction) (frame : Frame) :
    { s with retFrames := s.retFrames.insert i.position frame }.Placed setup :=
  h.congr { h.sized with retFrames := (PositionMap.bound_insert ..).trans h.sized.retFrames } rfl rfl rfl

theorem recordCall_placed {entry : Nat} {isNew isChanged : Bool} (hp : setup.Prepared code) (h : s.Placed setup)
    (hi : setup.body.get? index = some i) (hflow : i.flow = .jsr entry)
    (hrecord : s.recordCall i.position entry frame = some (t, isNew, isChanged)) : t.Placed setup := by
  have hinsert : ∀ {site : CallSite},
      (∃ caller, setup.body.startingAt? i.position = some caller ∧ caller.flow = .jsr site.entry) →
      { s with calls := s.calls.insert i.position site }.Placed setup := by
    intro site hsite
    exact { h with
      sized := { h.sized with calls := (PositionMap.bound_insert ..).trans h.sized.calls }
      calls := PositionMap.forall_insert h.calls hsite }
  obtain ⟨-, -, -, rfl⟩ | ⟨site, hsite, ⟨-, rfl⟩ | ⟨-, rfl⟩⟩ := recordCall_eq_some hrecord
  · exact hinsert ⟨i, hp.tiles.startingAt?_eq_some_iff.mpr ⟨rfl, index, hi⟩, hflow⟩
  · exact h
  · exact hinsert (h.calls i.position site hsite)

/-- A call has the subroutine looked at, and its `ret` instructions again. -/
theorem interpretJsr_placed {E : Nat → Prop} {entry : Nat} (hp : setup.Prepared code) (h : s.Placed setup)
    (hi : setup.body.get? index = some i) (hflow : i.flow = .jsr entry)
    (hjsr : s.interpretJsr setup i entry frame = .ok t)
    (hrets : t.registry.Accounts E fun _ ret => setup.IsStart ret) : t.Placed setup := by
  have hentry : setup.IsStart entry := Setup.isStart_of_target hp hi (by simp [Instruction.targets, hflow])
  obtain ⟨u, isNew, isChanged, start, registry, w, hrecord, -, hmerge, hcases⟩ := interpretJsr_eq_ok hjsr
  have hw := mergeInto_placed ((recordCall_placed hp h hi hflow hrecord).registry registry) hentry hmerge
  obtain ⟨noted, rets, rfl, rfl, rfl⟩ | ⟨-, rfl⟩ := hcases
  · rw [enqueueAll_eq] at hrets
    have hret : ∀ ret ∈ ((w.note setup (.callSite i.position entry)).registry.get? entry).elim []
        Subroutine.retInstructions, setup.IsStart ret := by
      intro ret hret
      cases hsub : (w.note setup (.callSite i.position entry)).registry.get? entry with
      | none => simp [hsub] at hret
      | some sub =>
        rw [hsub] at hret
        exact (hrets entry sub hsub).2.2 ret hret
    refine (hw.note _).enqueueAll ?_
    intro p hp
    split at hp
    · rcases List.mem_cons.mp hp with rfl | hmem
      · exact hentry
      · exact hret p hmem
    · exact hret p hp
  · exact hw

/-- A call is returned to only if an instruction stands behind it. -/
theorem returnTo_placed {slot : UInt16} {entry : Nat} {call : Nat × CallSite} {accessed : Nat → Bool}
    (h : s.Placed setup) (hreturn : returnTo setup i slot entry frame accessed s call = .ok t) : t.Placed setup := by
  obtain ⟨-, caller, registry, -, hstart, -, hmerge⟩ := returnTo_eq_ok hreturn
  refine mergeInto_placed (Placed.note ?_ _) hstart hmerge
  exact h.congr { h.sized with jsrRets := (PositionMap.bound_insert ..).trans h.sized.jsrRets } rfl rfl rfl

/-! ## One look -/

/-- At every point of a look all is in place, if it was before the look. -/
theorem During.placed {E : Nat → Prop} {g : Frame} (ha : setup.Anchored code) (h : s.Placed setup)
    (hi : setup.body.get? index = some i) (hduring : During setup s i frame t g)
    (hrets : t.registry.Accounts E fun _ ret => setup.IsStart ret) : t.Placed setup := by
  have hp := ha.toPrepared
  have hlooked := h.looked i frame
  have hbefore : ∀ {u : Session}, (s.looked setup i frame).mergeHandlers setup i.position frame = .ok u →
      u.Placed setup := mergeHandlers_placed ha hlooked
  have htarget : ∀ {p : Nat}, p ∈ i.targets → setup.IsStart p := Setup.isStart_of_target hp hi
  cases hduring with
  | handlers hsplit hfold => exact foldlM_mergeHandler_placed ha hlooked hsplit hfold
  | executed hu _ _ => exact (hbefore hu).executed i _ frame
  | stored hu _ _ hsplit hfold => exact foldlM_mergeHandler_placed ha ((hbefore hu).executed i _ frame) hsplit hfold
  | branched hu hflow _ hmerge =>
    exact mergeInto_placed (hbefore hu) (htarget (by simp [Instruction.targets, hflow])) hmerge
  | @selected _ _ _ _ _ _ rest hu hflow _ hsplit hmerge =>
    refine mergeIntoAll_placed (hbefore hu) (fun p hmem => htarget ?_) hmerge
    simp only [Instruction.targets, hflow, hsplit]
    exact List.mem_append_left rest hmem
  | recorded hu hflow hrecord => exact recordCall_placed hp (hbefore hu) hi hflow hrecord
  | registered hu hflow hrecord => exact (recordCall_placed hp (hbefore hu) hi hflow hrecord).registry _
  | entered hu hflow hrecord _ hmerge =>
    refine mergeInto_placed ?_ (htarget (by simp [Instruction.targets, hflow])) hmerge
    exact (recordCall_placed hp (hbefore hu) hi hflow hrecord).registry _
  | called hu hflow hjsr => exact interpretJsr_placed hp (hbefore hu) hi hflow hjsr hrets
  | kept hu _ => exact (hbefore hu).keepRet i frame
  | returned hu _ _ _ _ _ hfold =>
    have hu := (hbefore hu).keepRet i frame
    refine foldlM_keeps (fun _ _ _ _ => returnTo_placed) ?_ hfold
    exact hu.congr { hu.sized with framesPopped := (PositionMap.bound_insert ..).trans hu.sized.framesPopped } rfl rfl rfl

/-- All is in place, and so are the subroutines that are known, with their `ret` instructions. -/
structure Grounded (setup : Setup) (s : Session) : Prop extends s.Placed setup where
  subroutines : s.registry.Accounts setup.IsStart fun _ ret => setup.IsStart ret

theorem During.grounded {g : Frame} (ha : setup.Anchored code) (h : s.Grounded setup)
    (hi : setup.body.get? index = some i) (hduring : During setup s i frame t g) : t.Grounded setup := by
  have hsubroutines : t.registry.Accounts setup.IsStart fun _ ret => setup.IsStart ret := by
    refine hduring.accounts h.subroutines ?_ ?_
    · intro entry hflow
      exact Setup.isStart_of_target ha.toPrepared hi (by simp [Instruction.targets, hflow])
    · intro _ _ _ _
      exact Setup.isStart_of_get? ha.toPrepared hi
  exact ⟨hduring.placed ha h.toPlaced hi hsubroutines, hsubroutines⟩

theorem interpretOne_grounded {next : Option Frame} (ha : setup.Anchored code) (h : s.Grounded setup)
    (hi : setup.body.get? index = some i) (hone : s.interpretOne setup i frame = .ok (t, next)) : t.Grounded setup := by
  obtain ⟨g, hduring, -⟩ := during_of_interpretOne hone
  exact hduring.grounded ha h hi

theorem mergeInto_grounded {position : Nat} (h : s.Grounded setup) (hstart : setup.IsStart position)
    (hmerge : s.mergeInto setup position frame = .ok t) : t.Grounded setup :=
  ⟨mergeInto_placed h.toPlaced hstart hmerge, mergeInto_registry hmerge ▸ h.subroutines⟩

end Session

/-! ## The whole analysis -/

namespace Inference

variable {setup : Setup} {code : List UInt8} {entry : Frame} {look : Option (Nat × Frame)} {s t : Session}

theorem grounded_start (setup : Setup) :
    (Session.start setup.body.codeLength setup.method.code.maxLocals.toNat).Grounded setup where
  sized := (wellFormed_start setup).sized
  nodup := List.nodup_nil
  worklist p hp := by simp [Session.start] at hp
  states p st hst := by simp [Session.start] at hst
  calls p site hsite := by simp [Session.start] at hsite
  subroutines := Registry.accounts_empty _

theorem Passes.grounded (ha : setup.Anchored code) (h : Passes setup entry look s) : s.Grounded setup := by
  induction h with
  | enter h => exact Session.mergeInto_grounded (grounded_start setup) ha.entry h
  | state _ hwork hst _ ih => exact ⟨(ih.pop hwork).insertState (ih.states _ _ hst) _, ih.subroutines⟩
  | ret _ hwork _ _ _ ih => exact ⟨ih.pop hwork, ih.subroutines⟩
  | nothing _ hwork _ _ ih => exact ⟨ih.pop hwork, ih.subroutines⟩
  | left _ hi hone ih => exact Session.interpretOne_grounded ha ih hi hone
  | met _ hi hone hi' _ hmerge ih =>
    have hstart := Setup.isStart_of_get? ha.toPrepared hi'
    exact Session.mergeInto_grounded (Session.interpretOne_grounded ha ih hi hone) hstart hmerge
  | on _ hi hone _ _ ih => exact Session.interpretOne_grounded ha ih hi hone

/-- All is in place at every point of an analysis. -/
theorem Point.grounded {hand : Option Frame} (ha : setup.Anchored code) (h : Point setup entry s hand) :
    s.Grounded setup := by
  cases h with
  | start => exact grounded_start setup
  | between h => exact h.grounded ha
  | before h => exact h.grounded ha
  | inside h hi hduring => exact hduring.grounded ha (h.grounded ha) hi

end Inference

end Bytecode
