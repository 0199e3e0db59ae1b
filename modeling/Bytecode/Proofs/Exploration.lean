import Bytecode.Proofs.Growth

/-!
# Exploration of the code

Inference looks at the code in runs: from a head, straight on, until control leaves or comes to another head.

* `Session.Handled`: everything an instruction does with a frame has been seen to;
* `Session.interpretOne_eq_ok`: what one look does, from which `Session.interpretOne_spec` and later invariants follow;
* `Session.Covers`: all instructions of a run have been handled, each with the frame that the one in front of it
  leaves;
* `Session.Explores`: every head is on the worklist or its run is covered by the frame of its state.  Every round
  keeps this (`Session.explores_round`), so at the end all runs are covered (`Session.explores_run`).
-/

namespace Bytecode

namespace Instruction

/-- Can control go on to the next instruction? -/
def runsOn (i : Instruction) : Bool :=
  match i.flow with
  | .plain _ => !i.flags.stop
  | .branch kind _ => kind ≠ .goto
  | .select _ _ | .jsr _ | .ret _ => false

/-- The frame for the next instruction, if control goes on to it. -/
def onward (i : Instruction) (context : ExecutionContext) (frame : Frame) : Option Frame :=
  match i.flow with
  | .plain op => if i.flags.stop then none else (frame.after op context).toOption
  | .branch kind _ => if kind = .goto then none else (frame.executeBranch kind).toOption
  | .select _ _ | .jsr _ | .ret _ => none

theorem runsOn_of_onward {i : Instruction} {context : ExecutionContext} {frame next : Frame}
    (h : i.onward context frame = some next) : i.runsOn = true := by
  unfold onward at h
  unfold runsOn
  cases hflow : i.flow with
  | plain op =>
    simp only [hflow] at h ⊢
    by_cases hstop : i.flags.stop = true
    · simp [hstop] at h
    · simpa using hstop
  | branch kind target =>
    simp only [hflow] at h ⊢
    by_cases hkind : kind = .goto
    · simp [hkind] at h
    · simpa using hkind
  | select default cases => simp [hflow] at h
  | jsr target => simp [hflow] at h
  | ret index => simp [hflow] at h

/-- What an instruction that runs on keeps of a frame. -/
theorem onward_effect {R : Frame → Frame → Prop} (hR : Exec.Effect R) {i : Instruction}
    {context : ExecutionContext} {frame next : Frame} (h : i.onward context frame = some next) : R frame next := by
  unfold onward at h
  split at h
  · split at h
    · simp at h
    · exact Frame.after_effect hR (toOption_eq_some.mp h)
  · split at h
    · simp at h
    · exact Frame.executeBranch_effect hR (toOption_eq_some.mp h)
  all_goals simp at h

/-- From frames of which one says more, an instruction that runs on leaves such frames. -/
theorem onward_mono {i : Instruction} {context : ExecutionContext} {f f' g g' : Frame} (h : f.Below f')
    (hpaired : Exec.Paired f.locals) (hg : i.onward context f = some g) (hg' : i.onward context f' = some g') :
    g.Below g' := by
  unfold onward at hg hg'
  cases hflow : i.flow with
  | plain op =>
    simp only [hflow] at hg hg'
    split at hg
    · simp at hg
    · rename_i hstop
      rw [if_neg hstop] at hg'
      have hafter := toOption_eq_some.mp hg
      obtain ⟨_, hsame, hbelow⟩ := Frame.after_mono h hpaired (Frame.storesAlike_of_after hafter) (toOption_eq_some.mp hg')
      rwa [← Except.ok.inj (hafter.symm.trans hsame)] at hbelow
  | branch kind target =>
    simp only [hflow] at hg hg'
    split at hg
    · simp at hg
    · rename_i hgoto
      rw [if_neg hgoto] at hg'
      obtain ⟨_, hsame, hbelow⟩ := Frame.executeBranch_mono h hpaired (toOption_eq_some.mp hg')
      rwa [← Except.ok.inj ((toOption_eq_some.mp hg).symm.trans hsame)] at hbelow
  | select default cases => simp [hflow] at hg
  | jsr target => simp [hflow] at hg
  | ret index => simp [hflow] at hg

end Instruction

namespace Frame

theorem Fits.onward {setup : Setup} {i : Instruction} {frame next : Frame} (h : frame.Fits setup)
    (hnext : i.onward (setup.context i.position) frame = some next) : next.Fits setup := by
  unfold Instruction.onward at hnext
  split at hnext
  · split at hnext
    · simp at hnext
    · exact h.after (toOption_eq_some.mp hnext)
  · split at hnext
    · simp at hnext
    · exact h.executeBranch (toOption_eq_some.mp hnext)
  all_goals simp at hnext

end Frame

namespace Session

variable {setup : Setup} {code : List UInt8} {s t u : Session} {i : Instruction} {frame : Frame} {index position : Nat}

/-! ## Handled instructions -/

/-- What has been seen to after an instruction was looked at with a frame, by the way that control goes on.  A
`ret` may have to be looked at again. -/
def FlowHandled (setup : Setup) (pending : List Nat) (s : Session) (i : Instruction) (frame : Frame) : Prop :=
  match i.flow with
  | .plain op => ∃ after, frame.after op (setup.context i.position) = .ok after ∧
      (i.flags.store = true → s.HandlersReached setup i.position after) ∧
      (storesReturnAddress op frame = true → s.returnStores.contains i.position = true)
  | .branch kind target => ∃ after, frame.executeBranch kind = .ok after ∧ s.Delivered target after
  | .select default cases => ∃ after, frame.executeSelect = .ok after ∧
      ∀ target ∈ default :: cases.targets, s.Delivered target after
  | .jsr entry => Entered setup s i entry frame
  | .ret index => s.retFrames.get? i.position = some frame ∧ ∃ entry, Left setup s i index frame entry ∧
      (i.position ∈ pending ∨ ∃ seen, Returned setup s i.position index.toNat entry frame seen)

/-- Everything that an instruction does with a frame has been seen to. -/
structure Handled (setup : Setup) (pending : List Nat) (s : Session) (i : Instruction) (frame : Frame) : Prop where
  fits : frame.Fits setup
  visited : s.visited.contains i.position = true
  handlers : s.HandlersReached setup i.position frame
  flow : FlowHandled setup pending s i frame

/-- What has been seen to stays so while more is known, as long as the frames at `ret` instructions stay. -/
theorem Handled.mono {pending pending' : List Nat} (h : Handled setup pending s i frame) (hlearns : s.Learns t)
    (hwork : t.worklist ⊆ pending')
    (hpending : (∃ index, i.flow = .ret index) → i.position ∈ pending → i.position ∈ pending')
    (hret : t.retFrames.get? i.position = s.retFrames.get? i.position) : Handled setup pending' t i frame := by
  refine ⟨h.fits, hlearns.visited _ h.visited, h.handlers.mono hlearns, ?_⟩
  have hflow := h.flow
  unfold FlowHandled at hflow ⊢
  cases hcase : i.flow with
  | plain op =>
    simp only [hcase] at hflow ⊢
    obtain ⟨after, hafter, hstore, hreturn⟩ := hflow
    exact ⟨after, hafter, fun hflag => (hstore hflag).mono hlearns, fun hstores => hlearns.returnStores _ (hreturn hstores)⟩
  | branch kind target =>
    simp only [hcase] at hflow ⊢
    obtain ⟨after, hafter, hdelivered⟩ := hflow
    exact ⟨after, hafter, hdelivered.mono hlearns⟩
  | select default cases =>
    simp only [hcase] at hflow ⊢
    obtain ⟨after, hafter, hdelivered⟩ := hflow
    exact ⟨after, hafter, fun target hmem => (hdelivered target hmem).mono hlearns⟩
  | jsr entry =>
    simp only [hcase] at hflow ⊢
    exact hflow.mono hlearns
  | ret index =>
    simp only [hcase] at hflow ⊢
    obtain ⟨hframe, entry, hleft, hdone⟩ := hflow
    refine ⟨hret.trans hframe, entry, hleft.mono hlearns, ?_⟩
    rcases hdone with hmem | ⟨seen, hreturned⟩
    · exact Or.inl (hpending ⟨index, hcase⟩ hmem)
    · rcases hreturned.mono hleft hlearns with hmem | hreturned'
      · exact Or.inl (hwork hmem)
      · exact Or.inr ⟨seen, hreturned'⟩

/-- An instruction that was handled with a frame and can run on does run on. -/
theorem Handled.onward_of_runsOn {pending : List Nat} (h : Handled setup pending s i frame) (hon : i.runsOn = true) :
    ∃ next, i.onward (setup.context i.position) frame = some next := by
  have hflow := h.flow
  unfold FlowHandled at hflow
  unfold Instruction.runsOn at hon
  unfold Instruction.onward
  cases hcase : i.flow with
  | plain op =>
    simp only [hcase, Bool.not_eq_true'] at hflow hon ⊢
    obtain ⟨after, hafter, -⟩ := hflow
    exact ⟨after, by simp [hon, hafter, Except.toOption]⟩
  | branch kind target =>
    simp only [hcase, ne_eq, decide_not, Bool.not_eq_true', decide_eq_false_iff_not] at hflow hon ⊢
    obtain ⟨after, hafter, -⟩ := hflow
    exact ⟨after, by simp [hon, hafter, Except.toOption]⟩
  | select default cases => simp [hcase] at hon
  | jsr target => simp [hcase] at hon
  | ret index => simp [hcase] at hon

/-! ## One instruction -/

/-- The instruction is a `ret`, and the frame has the return address of a call in its local. -/
def ReturnsFrom (i : Instruction) (frame : Frame) (site : CallSite) : Prop :=
  ∃ slot, i.flow = .ret slot ∧ frame.locals[slot.toNat]? = some (.returnAddress site.entry)

/-- What looking at one instruction does. -/
structure LooksAt (setup : Setup) (s : Session) (i : Instruction) (frame : Frame) (t : Session) : Prop where
  grows : s.Grows t
  wellFormed : t.WellFormed setup
  handled : Handled setup t.worklist t i frame
  visited : ∀ p, t.visited.contains p = true → s.visited.contains p = true ∨ p = i.position
  retFrames : ∀ p, t.retFrames.get? p = s.retFrames.get? p ∨
    p = i.position ∧ (∃ index, i.flow = .ret index) ∧ t.retFrames.get? p = some frame
  bound : ∀ jsr ret, t.jsrRets.get? jsr = some ret → s.jsrRets.get? jsr = some ret ∨
    ret = i.position ∧ ∃ site, t.calls.get? jsr = some site ∧ ReturnsFrom i frame site
  returned : ∀ slot, i.flow = .ret slot → ∃ entry sub, s.registry.get? entry = some sub ∧
    Left setup t i slot frame entry ∧ Returned setup t i.position slot.toNat entry frame sub.isAccessed

/-- An instruction is marked as looked at. -/
def looked (s : Session) (setup : Setup) (i : Instruction) (frame : Frame) : Session :=
  { s with visited := s.visited.insert i.position }.note setup (.interpreting i.position i.mnemonic frame)

/-- An operation has run. -/
def executed (s : Session) (setup : Setup) (i : Instruction) (op : Op) (frame : Frame) : Session :=
  let s :=
    if storesReturnAddress op frame then { s with returnStores := s.returnStores.insert i.position }
    else s
  { s with registry := (frame.execute op (setup.context i.position) s.registry).1 }

/-- What running an operation does, if it goes through. -/
theorem interpretPlain_eq_ok {op : Op} {next : Option Frame} (h : s.interpretPlain setup i op frame = .ok (t, next)) :
    ∃ after, frame.after op (setup.context i.position) = .ok after ∧ next = (if i.flags.stop then none else some after) ∧
      (i.flags.store = true ∧ (s.executed setup i op frame).mergeHandlers setup i.position after = .ok t ∨
        i.flags.store = false ∧ t = s.executed setup i op frame) := by
  unfold interpretPlain at h
  dsimp only at h
  split at h
  · simp at h
  · rename_i after hafter
    rw [require_eq_ok, Frame.execute_snd] at hafter
    refine ⟨after, hafter, ?_⟩
    split at h
    · rename_i hstore
      split at h
      · simp at h
      · rename_i w hmerge
        obtain ⟨rfl, rfl⟩ := Prod.mk.inj (Except.ok.inj h)
        exact ⟨rfl, Or.inl ⟨hstore, hmerge⟩⟩
    · rename_i hstore
      obtain ⟨rfl, rfl⟩ := Prod.mk.inj (Except.ok.inj h)
      exact ⟨rfl, Or.inr ⟨by simpa using hstore, rfl⟩⟩

/-- The work on an instruction, once its handlers know the frame, leads to another session and, unless control leaves, to
the frame for the next instruction. -/
inductive Works (setup : Setup) (s : Session) (i : Instruction) (frame : Frame) : Session → Option Frame → Prop
  | plain {op : Op} {t : Session} {next : Option Frame} (hflow : i.flow = .plain op)
      (h : s.interpretPlain setup i op frame = .ok (t, next)) : Works setup s i frame t next
  | branch {kind : BranchKind} {target : Nat} {after : Frame} {t : Session} (hflow : i.flow = .branch kind target)
      (hafter : frame.executeBranch kind = .ok after) (h : s.mergeInto setup target after = .ok t) :
      Works setup s i frame t (if kind = .goto then none else some after)
  | select {default : Nat} {cases : Cases} {after : Frame} {t : Session} (hflow : i.flow = .select default cases)
      (hafter : frame.executeSelect = .ok after) (h : s.mergeIntoAll setup (default :: cases.targets) after = .ok t) :
      Works setup s i frame t none
  | jsr {entry : Nat} {t : Session} (hflow : i.flow = .jsr entry) (h : s.interpretJsr setup i entry frame = .ok t) :
      Works setup s i frame t none
  | ret {slot : UInt16} {t : Session} (hflow : i.flow = .ret slot)
      (h : { s with retFrames := s.retFrames.insert i.position frame }.interpretRet setup i slot frame = .ok t) :
      Works setup s i frame t none

theorem Works.of_jsr {entry : Nat} {next : Option Frame} (h : s.Works setup i frame t next) (hflow : i.flow = .jsr entry) :
    s.interpretJsr setup i entry frame = .ok t := by
  cases h <;> simp_all

theorem Works.of_ret {slot : UInt16} {next : Option Frame} (h : s.Works setup i frame t next) (hflow : i.flow = .ret slot) :
    { s with retFrames := s.retFrames.insert i.position frame }.interpretRet setup i slot frame = .ok t := by
  cases h <;> simp_all

/-- What looking at an instruction does, if it goes through: the frame comes to the handlers, and then there is the work of
the instruction. -/
theorem interpretOne_eq_ok {next : Option Frame} (h : s.interpretOne setup i frame = .ok (t, next)) :
    ∃ u, (s.looked setup i frame).mergeHandlers setup i.position frame = .ok u ∧ u.Works setup i frame t next := by
  unfold interpretOne at h
  dsimp only at h
  split at h
  · simp at h
  · rename_i u hmerge
    refine ⟨u, hmerge, ?_⟩
    cases hflow : i.flow with
    | plain op =>
      simp only [hflow] at h
      exact .plain hflow h
    | branch kind target =>
      simp only [hflow] at h
      split at h
      · simp at h
      · rename_i after hafter
        split at h
        · simp at h
        · rename_i w hinto
          obtain ⟨rfl, rfl⟩ := Prod.mk.inj (Except.ok.inj h)
          exact .branch hflow (require_eq_ok.mp hafter) hinto
    | select default cases =>
      simp only [hflow] at h
      split at h
      · simp at h
      · rename_i after hafter
        split at h
        · simp at h
        · rename_i w hinto
          obtain ⟨rfl, rfl⟩ := Prod.mk.inj (Except.ok.inj h)
          exact .select hflow (require_eq_ok.mp hafter) hinto
    | jsr entry =>
      simp only [hflow] at h
      split at h
      · simp at h
      · rename_i w hjsr
        obtain ⟨rfl, rfl⟩ := Prod.mk.inj (Except.ok.inj h)
        exact .jsr hflow hjsr
    | ret slot =>
      simp only [hflow] at h
      split at h
      · simp at h
      · rename_i w hret
        obtain ⟨rfl, rfl⟩ := Prod.mk.inj (Except.ok.inj h)
        exact .ret hflow hret

/-- An operation that goes through is noted if it stores a return address, and charges the locals that it uses. -/
theorem executed_eq {op : Op} {after : Frame} (hafter : frame.after op (setup.context i.position) = .ok after) :
    s.executed setup i op frame = { s with
      returnStores := if storesReturnAddress op frame then s.returnStores.insert i.position else s.returnStores
      registry := s.registry.charge frame.nesting op.slots } := by
  unfold executed
  dsimp only
  rw [Frame.execute_fst hafter]
  split <;> rfl

theorem executed_spec {op : Op} {after : Frame} (hwf : s.WellFormed setup) (hposition : i.position < setup.body.codeLength)
    (hafter : frame.after op (setup.context i.position) = .ok after) :
    s.Step (s.executed setup i op frame) ∧ (s.executed setup i op frame).WellFormed setup ∧
      (storesReturnAddress op frame = true → (s.executed setup i op frame).returnStores.contains i.position = true) := by
  rw [executed_eq hafter]
  have hcharge := Registry.grows_charge s.registry frame.nesting op.slots
  split
  · refine ⟨⟨{ Grows.refl s with
        registry := hcharge
        returnStores := fun _ h => PositionSet.contains_insert_of_contains h }, rfl, rfl⟩,
      hwf.congr rfl rfl rfl rfl rfl (PositionSet.size_insert ..) rfl, fun _ => ?_⟩
    apply PositionSet.contains_insert_self
    rw [hwf.sized.returnStores]
    exact hposition
  · rename_i hstores
    exact ⟨step_registry hcharge, hwf.registry _, fun h => absurd h hstores⟩

theorem interpretPlain_spec {op : Op} {next : Option Frame} (hp : setup.Prepared code) (hwf : s.WellFormed setup)
    (hframe : frame.Fits setup) (hposition : i.position < setup.body.codeLength)
    (h : s.interpretPlain setup i op frame = .ok (t, next)) :
    s.Step t ∧ t.WellFormed setup ∧ t.jsrRets = s.jsrRets ∧ ∃ after, frame.after op (setup.context i.position) = .ok after ∧
      (i.flags.store = true → t.HandlersReached setup i.position after) ∧
      (storesReturnAddress op frame = true → t.returnStores.contains i.position = true) ∧
      next = if i.flags.stop then none else some after := by
  obtain ⟨after, hafter, rfl, hcases⟩ := interpretPlain_eq_ok h
  obtain ⟨hstep, hwf', hstores⟩ := executed_spec hwf hposition hafter
  have hsame : (s.executed setup i op frame).jsrRets = s.jsrRets := by rw [executed_eq hafter]
  rcases hcases with ⟨-, hmerge⟩ | ⟨hflag, rfl⟩
  · obtain ⟨hstep', hwf'', hreached⟩ := mergeHandlers_spec hp hwf' (hframe.after hafter) hmerge
    refine ⟨hstep.trans hstep', hwf'', ?_, after, hafter, fun _ => hreached,
      fun h => hstep'.returnStores _ (hstores h), rfl⟩
    rw [mergeHandlers_eq hmerge]
    exact hsame
  · exact ⟨hstep, hwf', hsame, after, hafter, fun h => absurd h (by simp [hflag]), hstores, rfl⟩

/-- Before the work on an instruction, it is marked as looked at, and its handlers know the frame. -/
structure Begins (setup : Setup) (s : Session) (i : Instruction) (frame : Frame) (u : Session) : Prop where
  grows : s.Grows u
  wellFormed : u.WellFormed setup
  seen : u.visited.contains i.position = true
  visited : ∀ p, u.visited.contains p = true → s.visited.contains p = true ∨ p = i.position
  handlers : u.HandlersReached setup i.position frame
  retFrames : u.retFrames = s.retFrames
  jsrRets : u.jsrRets = s.jsrRets
  registry : u.registry = s.registry

theorem looked_eq (s : Session) (setup : Setup) (i : Instruction) (frame : Frame) :
    s.looked setup i frame = { s with
      visited := s.visited.insert i.position
      events := (s.looked setup i frame).events } := note_eq ..

theorem WellFormed.looked (h : s.WellFormed setup) (i : Instruction) (frame : Frame) :
    (s.looked setup i frame).WellFormed setup := by
  rw [looked_eq]
  exact h.congr rfl rfl rfl rfl rfl rfl (PositionSet.size_insert ..)

theorem begins_of_mergeHandlers (hp : setup.Prepared code) (hwf : s.WellFormed setup) (hframe : frame.Fits setup)
    (hposition : i.position < setup.body.codeLength)
    (h : (s.looked setup i frame).mergeHandlers setup i.position frame = .ok u) : Begins setup s i frame u := by
  obtain ⟨hstep, hwfu, hreached⟩ := mergeHandlers_spec hp (hwf.looked i frame) hframe h
  have hgrows : s.Grows (s.looked setup i frame) := by
    rw [looked_eq]
    exact { Grows.refl s with visited := fun _ h => PositionSet.contains_insert_of_contains h }
  have hvisited : u.visited = s.visited.insert i.position := by
    rw [hstep.sameVisited, looked_eq]
  refine ⟨hgrows.trans hstep.toGrows, hwfu, ?_, ?_, hreached, ?_, ?_, ?_⟩
  · rw [hvisited]
    apply PositionSet.contains_insert_self
    rw [hwf.sized.visited]
    exact hposition
  · intro p h
    rw [hvisited, PositionSet.contains_insert] at h
    rcases Bool.or_eq_true_iff.mp h with hnew | hold
    · exact Or.inr (of_decide_eq_true hnew).1.symm
    · exact Or.inl hold
  all_goals rw [mergeHandlers_eq h, looked_eq]

/-- The work on an instruction other than a `ret`. -/
theorem Begins.of_step (h : Begins setup s i frame u) (hframe : frame.Fits setup) (hstep : u.Step t)
    (hwf : t.WellFormed setup) (hbound : t.jsrRets = u.jsrRets) (hflow : FlowHandled setup t.worklist t i frame)
    (hother : ∀ slot, i.flow ≠ .ret slot) : LooksAt setup s i frame t where
  grows := h.grows.trans hstep.toGrows
  wellFormed := hwf
  handled := ⟨hframe, hstep.visited _ h.seen, h.handlers.mono hstep.toLearns, hflow⟩
  visited p hp := by
    rw [hstep.sameVisited] at hp
    exact h.visited p hp
  retFrames p := by
    rw [hstep.retFrames, h.retFrames]
    exact Or.inl rfl
  bound jsr ret hret := by
    rw [hbound, h.jsrRets] at hret
    exact Or.inl hret
  returned slot hslot := absurd hslot (hother slot)

theorem WellFormed.insertRet (h : s.WellFormed setup) (hframe : frame.Fits setup) :
    { s with retFrames := s.retFrames.insert position frame }.WellFormed setup := by
  refine ⟨{ h.sized with retFrames := (s.retFrames.bound_insert position frame).trans h.sized.retFrames },
    h.states, h.calls, ?_⟩
  exact PositionMap.forall_insert h.retFrames hframe

/-- The work on a `ret`. -/
theorem Begins.of_ret {slot : UInt16} (h : Begins setup s i frame u) (hp : setup.Prepared code) (hframe : frame.Fits setup)
    (hposition : i.position < setup.body.codeLength) (hflow : i.flow = .ret slot)
    (hret : { u with retFrames := u.retFrames.insert i.position frame }.interpretRet setup i slot frame = .ok t) :
    LooksAt setup s i frame t := by
  obtain ⟨hstep, hwf, entry, sub, hsub, hleft, hreturned, hbinds⟩ :=
    interpretRet_spec hp (h.wellFormed.insertRet hframe) hframe hposition hret
  have hgrows : u.Grows t := ({ Grows.refl u with } : u.Grows
    { u with retFrames := u.retFrames.insert i.position frame }).trans hstep.toGrows
  have hown : t.retFrames.get? i.position = some frame := by
    rw [hstep.retFrames]
    refine PositionMap.get?_insert_self frame ?_
    rw [h.wellFormed.sized.retFrames]
    exact hposition
  refine ⟨h.grows.trans hgrows, hwf, ⟨hframe, hgrows.visited _ h.seen, h.handlers.mono hgrows.toLearns, ?_⟩, ?_, ?_, ?_, ?_⟩
  · unfold FlowHandled
    simp only [hflow]
    exact ⟨hown, entry, hleft, Or.inr ⟨_, hreturned⟩⟩
  · intro p hvisited
    rw [hstep.sameVisited] at hvisited
    exact h.visited p hvisited
  · intro p
    by_cases hpi : i.position = p
    · exact Or.inr ⟨hpi.symm, ⟨slot, hflow⟩, hpi ▸ hown⟩
    · left
      rw [hstep.retFrames, ← h.retFrames]
      exact PositionMap.get?_insert_ne u.retFrames frame hpi
  · intro jsr ret hbound
    rcases hbinds jsr ret hbound with hold | ⟨rfl, site, hsite, rfl⟩
    · exact Or.inl (h.jsrRets ▸ hold)
    · exact Or.inr ⟨rfl, site, hsite, slot, hflow, hleft.address⟩
  · intro slot' hflow'
    obtain rfl := Flow.ret.inj (hflow.symm.trans hflow')
    exact ⟨entry, sub, h.registry ▸ hsub, hleft, hreturned⟩

theorem interpretOne_spec {next : Option Frame} (hp : setup.Prepared code) (hwf : s.WellFormed setup)
    (hframe : frame.Fits setup) (hi : setup.body.get? index = some i) (h : s.interpretOne setup i frame = .ok (t, next)) :
    LooksAt setup s i frame t ∧ next = i.onward (setup.context i.position) frame := by
  have hposition : i.position < setup.body.codeLength := by
    rw [hp.tiles.codeLength_eq]
    exact hp.tiles.position_lt_length hi
  obtain ⟨u, hu, hworks⟩ := interpretOne_eq_ok h
  have hbegins := begins_of_mergeHandlers hp hwf hframe hposition hu
  have hwfu := hbegins.wellFormed
  cases hworks with
  | plain hflow hplain =>
    obtain ⟨hstep, hwf', hsame, after, hafter, hstore, hreturn, rfl⟩ := interpretPlain_spec hp hwfu hframe hposition hplain
    refine ⟨hbegins.of_step hframe hstep hwf' hsame ?_ (by simp [hflow]), ?_⟩
    · unfold FlowHandled
      simp only [hflow]
      exact ⟨after, hafter, hstore, hreturn⟩
    · unfold Instruction.onward
      simp only [hflow, hafter]
      rfl
  | @branch kind target after _ hflow hafter hmerge =>
    have hhead := hp.targets index i hi target (by simp [Instruction.targets, hflow])
    obtain ⟨hstep, hwf', hdelivered⟩ := mergeInto_spec hwfu (hframe.executeBranch hafter) hhead hmerge
    refine ⟨hbegins.of_step hframe hstep hwf' (by rw [mergeInto_eq hmerge]) ?_ (by simp [hflow]), ?_⟩
    · unfold FlowHandled
      simp only [hflow]
      exact ⟨after, hafter, hdelivered⟩
    · unfold Instruction.onward
      simp only [hflow, hafter]
      rfl
  | @select default cases after _ hflow hafter hmerge =>
    have hheads : ∀ target ∈ default :: cases.targets, setup.IsHead target := by
      intro target hmem
      refine hp.targets index i hi target ?_
      unfold Instruction.targets
      rw [hflow]
      exact hmem
    obtain ⟨hstep, hwf', hdelivered⟩ := mergeIntoAll_spec hwfu (hframe.executeSelect hafter) hheads hmerge
    refine ⟨hbegins.of_step hframe hstep hwf' (by rw [mergeIntoAll_eq hmerge]) ?_ (by simp [hflow]), ?_⟩
    · unfold FlowHandled
      simp only [hflow]
      exact ⟨after, hafter, hdelivered⟩
    · simp [Instruction.onward, hflow]
  | jsr hflow hjsr =>
    obtain ⟨hstep, hwf', hentered⟩ := interpretJsr_spec hp hwfu hframe hi hflow hjsr
    refine ⟨hbegins.of_step hframe hstep hwf' (interpretJsr_jsrRets hjsr) ?_ (by simp [hflow]), ?_⟩
    · unfold FlowHandled
      simp only [hflow]
      exact hentered
    · simp [Instruction.onward, hflow]
  | ret hflow hret =>
    exact ⟨hbegins.of_ret hp hframe hposition hflow hret, by simp [Instruction.onward, hflow]⟩

end Session

/-! ## Runs -/

/-- Control runs straight from the instruction with one index to the one with another, past no head. -/
structure Setup.Runs (setup : Setup) (first last : Nat) : Prop where
  le : first ≤ last
  on : ∀ index, first ≤ index → index < last → ∃ i, setup.body.get? index = some i ∧ i.runsOn = true
  inside : ∀ (index : Nat) (i : Instruction), first < index → index ≤ last → setup.body.get? index = some i →
    ¬ setup.IsHead i.position

namespace Setup.Runs

theorem refl (setup : Setup) (index : Nat) : setup.Runs index index :=
  ⟨Nat.le_refl _, by intro k hk hlt; omega, by intro k i hlt hle; omega⟩

/-- A run can start one instruction earlier. -/
theorem step {setup : Setup} {index last : Nat} {i i' : Instruction} (h : setup.Runs (index + 1) last)
    (hi : setup.body.get? index = some i) (hon : i.runsOn = true) (hi' : setup.body.get? (index + 1) = some i')
    (hhead : ¬ setup.IsHead i'.position) : setup.Runs index last := by
  refine ⟨by have := h.le; omega, ?_, ?_⟩
  · intro k hk hlt
    rcases Nat.lt_or_eq_of_le hk with hmore | rfl
    · exact h.on k (by omega) hlt
    · exact ⟨i, hi, hon⟩
  · intro k j hk hle hj
    rcases Nat.lt_or_eq_of_le (show index + 1 ≤ k by omega) with hmore | rfl
    · exact h.inside k j hmore hle hj
    · obtain rfl := Option.some.inj (hi'.symm.trans hj)
      exact hhead

/-- Runs from different heads have no instruction in common. -/
theorem first_eq {setup : Setup} {first first' last : Nat} {i i' : Instruction} (h : setup.Runs first last)
    (h' : setup.Runs first' last) (hi : setup.body.get? first = some i) (hhead : setup.IsHead i.position)
    (hi' : setup.body.get? first' = some i') (hhead' : setup.IsHead i'.position) : first = first' := by
  rcases Nat.lt_trichotomy first first' with hlt | heq | hgt
  · exact absurd hhead' (h.inside first' i' hlt h'.le hi')
  · exact heq
  · exact absurd hhead (h'.inside first i hgt h.le hi)

end Setup.Runs

/-- Control that comes to the instruction with one index with a frame runs straight to another, past no head, and
comes to it with another frame. -/
inductive Setup.Carries (setup : Setup) : Nat → Frame → Nat → Frame → Prop
  | refl (index : Nat) (frame : Frame) : Carries setup index frame index frame
  | step {index last : Nat} {i i' : Instruction} {frame next final : Frame} (hi : setup.body.get? index = some i)
      (hnext : i.onward (setup.context i.position) frame = some next) (hi' : setup.body.get? (index + 1) = some i')
      (hhead : ¬ setup.IsHead i'.position) (hrest : Carries setup (index + 1) next last final) :
      Carries setup index frame last final

theorem Setup.Carries.runs {setup : Setup} {first last : Nat} {frame final : Frame}
    (h : setup.Carries first frame last final) : setup.Runs first last := by
  induction h with
  | refl index frame => exact .refl setup index
  | step hi hnext hi' hhead _ ih => exact ih.step hi (Instruction.runsOn_of_onward hnext) hi' hhead

namespace Session

variable {setup : Setup} {code : List UInt8} {s t u : Session} {i : Instruction} {frame : Frame} {index position : Nat}

/-- The run from an instruction on has been looked at, from a frame on. -/
inductive Covers (setup : Setup) (pending : List Nat) (s : Session) : Nat → Frame → Prop
  /-- Control leaves. -/
  | left {index : Nat} {i : Instruction} {frame : Frame} (hi : setup.body.get? index = some i)
      (hhandled : Handled setup pending s i frame) (hleft : i.onward (setup.context i.position) frame = none) :
      Covers setup pending s index frame
  /-- Control comes to a head. -/
  | met {index : Nat} {i i' : Instruction} {frame next : Frame} (hi : setup.body.get? index = some i)
      (hhandled : Handled setup pending s i frame) (hnext : i.onward (setup.context i.position) frame = some next)
      (hi' : setup.body.get? (index + 1) = some i') (hhead : setup.IsHead i'.position)
      (hdelivered : s.Delivered i'.position next) : Covers setup pending s index frame
  /-- Control goes on. -/
  | on {index : Nat} {i i' : Instruction} {frame next : Frame} (hi : setup.body.get? index = some i)
      (hhandled : Handled setup pending s i frame) (hnext : i.onward (setup.context i.position) frame = some next)
      (hi' : setup.body.get? (index + 1) = some i') (hhead : ¬ setup.IsHead i'.position)
      (hrest : Covers setup pending s (index + 1) next) : Covers setup pending s index frame

/-- Covered runs stay covered as long as their instructions stay handled. -/
theorem Covers.map {pending pending' : List Nat} (h : Covers setup pending s index frame) (hlearns : s.Learns t)
    (hhandled : ∀ last i f, setup.Runs index last → setup.body.get? last = some i → Handled setup pending s i f →
      Handled setup pending' t i f) : Covers setup pending' t index frame := by
  induction h with
  | @left index i frame hi hown hleft => exact .left hi (hhandled _ _ _ (.refl _ _) hi hown) hleft
  | @met index i i' frame next hi hown hnext hi' hhead hdelivered =>
    exact .met hi (hhandled _ _ _ (.refl _ _) hi hown) hnext hi' hhead (hdelivered.mono hlearns)
  | @on index i i' frame next hi hown hnext hi' hhead hrest ih =>
    refine .on hi (hhandled _ _ _ (.refl _ _) hi hown) hnext hi' hhead (ih ?_)
    intro last j f hruns hj hold
    exact hhandled last j f (hruns.step hi (Instruction.runsOn_of_onward hnext) hi' hhead) hj hold

/-- Where the state of a place decides whether code is looked at from there. -/
theorem isMerged_iff (hwf : s.WellFormed setup) (hzero : (s.states.get? 0).isSome) :
    s.isMerged setup position = true ↔ setup.IsHead position := by
  unfold isMerged Setup.IsHead PositionMap.contains
  rw [Bool.or_eq_true]
  constructor
  · rintro (hmerge | hstate)
    · exact Or.inl hmerge
    · obtain ⟨st, hst⟩ := Option.isSome_iff_exists.mp hstate
      exact (hwf.states position st hst).2
  · rintro (hmerge | rfl)
    · exact Or.inl hmerge
    · exact Or.inr hzero

/-- What looking at the code from an instruction on does. -/
structure Interprets (setup : Setup) (s : Session) (index : Nat) (frame : Frame) (t : Session) : Prop where
  grows : s.Grows t
  wellFormed : t.WellFormed setup
  covers : Covers setup t.worklist t index frame
  visited : ∀ p, t.visited.contains p = true → s.visited.contains p = true ∨
    ∃ last i, setup.Runs index last ∧ setup.body.get? last = some i ∧ i.position = p
  retFrames : ∀ p, t.retFrames.get? p = s.retFrames.get? p ∨
    ∃ last i f, setup.Carries index frame last f ∧ setup.body.get? last = some i ∧ i.position = p ∧
      (∃ slot, i.flow = .ret slot) ∧ t.retFrames.get? p = some f ∧ t.visited.contains p = true
  bound : ∀ jsr ret, t.jsrRets.get? jsr = some ret → s.jsrRets.get? jsr = some ret ∨
    ∃ last i f site, setup.Carries index frame last f ∧ setup.body.get? last = some i ∧ i.position = ret ∧
      t.calls.get? jsr = some site ∧ ReturnsFrom i f site

/-- A run that is looked at further on. -/
theorem Interprets.cons {i' : Instruction} {next : Frame} (hp : setup.Prepared code)
    (hi : setup.body.get? index = some i) (hlooks : LooksAt setup s i frame u)
    (hnext : i.onward (setup.context i.position) frame = some next) (hi' : setup.body.get? (index + 1) = some i')
    (hhead : ¬ setup.IsHead i'.position) (h : Interprets setup u (index + 1) next t) :
    Interprets setup s index frame t := by
  have hon := Instruction.runsOn_of_onward hnext
  have hstep : ∀ {last : Nat}, setup.Runs (index + 1) last → setup.Runs index last :=
    fun hruns => hruns.step hi hon hi' hhead
  have hown : t.retFrames.get? i.position = u.retFrames.get? i.position := by
    rcases h.retFrames i.position with hsame | ⟨last, j, f, hcarries, hj, hposition, -⟩
    · exact hsame
    · have hlt : index < last := hcarries.runs.le
      have := hp.tiles.position_lt hlt hi hj
      omega
  refine ⟨hlooks.grows.trans h.grows, h.wellFormed, ?_, ?_, ?_, ?_⟩
  · refine .on hi ?_ hnext hi' hhead h.covers
    exact hlooks.handled.mono h.grows.toLearns (List.Subset.refl _) (fun _ hmem => h.grows.worklist hmem) hown
  · intro p hvisited
    rcases h.visited p hvisited with hold | ⟨last, j, hruns, hj, hposition⟩
    · rcases hlooks.visited p hold with hold | rfl
      · exact Or.inl hold
      · exact Or.inr ⟨index, i, .refl _ _, hi, rfl⟩
    · exact Or.inr ⟨last, j, hstep hruns, hj, hposition⟩
  · intro p
    rcases h.retFrames p with hsame | ⟨last, j, f, hcarries, hj, hposition, hret⟩
    · rcases hlooks.retFrames p with hsame' | ⟨rfl, ⟨slot, hflow⟩, -⟩
      · exact Or.inl (hsame.trans hsame')
      · -- an instruction that runs on is no `ret`
        simp [Instruction.runsOn, hflow] at hon
    · exact Or.inr ⟨last, j, f, .step hi hnext hi' hhead hcarries, hj, hposition, hret⟩
  · intro jsr ret hbound
    rcases h.bound jsr ret hbound with hold | ⟨last, j, f, site, hcarries, hj, hposition, hsite, hreturns⟩
    · rcases hlooks.bound jsr ret hold with hold' | ⟨-, site, -, slot, hflow, -⟩
      · exact Or.inl hold'
      · simp [Instruction.runsOn, hflow] at hon
    · exact Or.inr ⟨last, j, f, site, .step hi hnext hi' hhead hcarries, hj, hposition, hsite, hreturns⟩

/-- A run that ends with an instruction. -/
theorem Interprets.single (hi : setup.body.get? index = some i) (hlooks : LooksAt setup s i frame t)
    (hcovers : Covers setup t.worklist t index frame) : Interprets setup s index frame t := by
  refine ⟨hlooks.grows, hlooks.wellFormed, hcovers, ?_, ?_, ?_⟩
  · intro p hvisited
    rcases hlooks.visited p hvisited with hold | rfl
    · exact Or.inl hold
    · exact Or.inr ⟨index, i, .refl _ _, hi, rfl⟩
  · intro p
    rcases hlooks.retFrames p with hsame | ⟨rfl, hret, hget⟩
    · exact Or.inl hsame
    · exact Or.inr ⟨index, i, frame, .refl _ _, hi, rfl, hret, hget, hlooks.handled.visited⟩
  · intro jsr ret hbound
    rcases hlooks.bound jsr ret hbound with hold | ⟨rfl, site, hsite, hreturns⟩
    · exact Or.inl hold
    · exact Or.inr ⟨index, i, frame, site, .refl _ _, hi, rfl, hsite, hreturns⟩

theorem interpret_spec {origin : Nat} (hp : setup.Prepared code) (hwf : s.WellFormed setup)
    (hzero : (s.states.get? 0).isSome) (hframe : frame.Fits setup) (hi : setup.body.get? index = some i)
    (horigin : origin ≤ i.position) (h : interpret setup origin index frame s = .ok t) :
    (i.position ≠ origin ∧ setup.IsHead i.position) ∧ (s.Step t ∧ t.WellFormed setup ∧ t.Delivered i.position frame) ∧
        t.jsrRets = s.jsrRets ∧ t.calls = s.calls ∨
      ¬ (i.position ≠ origin ∧ setup.IsHead i.position) ∧ Interprets setup s index frame t := by
  fun_induction interpret setup origin index frame s generalizing i with
  | case1 index frame s hnone =>
    rw [hnone] at hi
    simp at hi
  | case2 index frame s j hj hmerged =>
    obtain rfl := Option.some.inj (hj.symm.trans hi)
    rw [Bool.and_eq_true, decide_eq_true_eq, isMerged_iff hwf hzero] at hmerged
    refine Or.inl ⟨hmerged, mergeInto_spec hwf hframe hmerged.2 h, ?_, ?_⟩
    · rw [mergeInto_eq h]
    · rw [mergeInto_eq h]
  | case3 => simp at h
  | case4 index frame s j hj hmerged u hone =>
    obtain rfl := Option.some.inj (hj.symm.trans hi)
    obtain rfl := Except.ok.inj h
    rw [Bool.and_eq_true, decide_eq_true_eq, isMerged_iff hwf hzero] at hmerged
    obtain ⟨hlooks, hnext⟩ := interpretOne_spec hp hwf hframe hi hone
    exact Or.inr ⟨hmerged, .single hi hlooks (.left hi hlooks.handled hnext.symm)⟩
  | case5 => simp [reject] at h
  | case6 index frame s j hj hmerged u next hone hsize ih =>
    obtain rfl := Option.some.inj (hj.symm.trans hi)
    rw [Bool.and_eq_true, decide_eq_true_eq, isMerged_iff hwf hzero] at hmerged
    obtain ⟨hlooks, hnext⟩ := interpretOne_spec hp hwf hframe hi hone
    obtain ⟨i', hi'⟩ := setup.body.exists_get? (index + 1) (by omega)
    have hlater := hp.tiles.position_lt (Nat.lt_succ_self index) hi hi'
    have hzero' : (u.states.get? 0).isSome := by
      obtain ⟨st, hst⟩ := Option.isSome_iff_exists.mp hzero
      obtain ⟨st', hst', -⟩ := hlooks.grows.states 0 st hst
      exact Option.isSome_of_eq_some hst'
    have hfits : next.Fits setup := hframe.onward hnext.symm
    have horigin' : i'.position ≠ origin := by omega
    right
    refine ⟨hmerged, ?_⟩
    rcases ih hlooks.wellFormed hzero' hfits hi' (by omega) h with
      ⟨⟨-, hhead⟩, ⟨hstep, hwf', hdelivered⟩, hrets, hcalls⟩ | ⟨hno, hrest⟩
    · have hlooks' : LooksAt setup s j frame t := by
        have hon := Instruction.runsOn_of_onward hnext.symm
        refine ⟨hlooks.grows.trans hstep.toGrows, hwf', ?_, ?_, ?_, ?_, ?_⟩
        · refine hlooks.handled.mono hstep.toLearns (List.Subset.refl _) (fun _ hmem => hstep.worklist hmem) ?_
          rw [hstep.retFrames]
        · rw [hstep.sameVisited]
          exact hlooks.visited
        · rw [hstep.retFrames]
          exact hlooks.retFrames
        · rw [hrets, hcalls]
          exact hlooks.bound
        · intro slot hflow
          simp [Instruction.runsOn, hflow] at hon
      exact .single hi hlooks' (.met hi hlooks'.handled hnext.symm hi' hhead hdelivered)
    · have hhead : ¬ setup.IsHead i'.position := fun hhead => hno ⟨horigin', hhead⟩
      exact .cons hp hi hlooks hnext.symm hi' hhead hrest

end Session

/-- A position lies on the run from another. -/
def Setup.RunsTo (setup : Setup) (source target : Nat) : Prop :=
  ∃ (first last : Nat) (i j : Instruction), setup.body.get? first = some i ∧ i.position = source ∧
    setup.Runs first last ∧ setup.body.get? last = some j ∧ j.position = target

theorem Setup.Carries.trans {setup : Setup} {first middle last : Nat} {f g h : Frame}
    (hfg : setup.Carries first f middle g) (hgh : setup.Carries middle g last h) : setup.Carries first f last h := by
  induction hfg with
  | refl => exact hgh
  | step hi hnext hi' hhead _ ih => exact .step hi hnext hi' hhead (ih hgh)

namespace Session

variable {setup : Setup} {code : List UInt8} {s t u : Session} {i : Instruction} {frame : Frame} {index position : Nat}

/-- Control came to an instruction with a frame, along the run from a place with a state. -/
def Arrives (setup : Setup) (s : Session) (index : Nat) (frame : Frame) : Prop :=
  ∃ (first : Nat) (i : Instruction) (st : TypeState) (start : Frame), setup.body.get? first = some i ∧
    s.states.get? i.position = some st ∧ start.Below st.frame ∧ start.Fits setup ∧ setup.Carries first start index frame

theorem Arrives.mono (h : s.Arrives setup index frame) (hlearns : s.Learns t) : t.Arrives setup index frame := by
  obtain ⟨first, i, st, start, hi, hst, hbelow, hfits, hcarries⟩ := h
  obtain ⟨st', hst', hbelow'⟩ := hlearns.states i.position st hst
  exact ⟨first, i, st', start, hi, hst', hbelow.trans hbelow', hfits, hcarries⟩

theorem Arrives.trans {last : Nat} {final : Frame} (h : s.Arrives setup index frame)
    (hcarries : setup.Carries index frame last final) : s.Arrives setup last final := by
  obtain ⟨first, i, st, start, hi, hst, hbelow, hfits, hcarries'⟩ := h
  exact ⟨first, i, st, start, hi, hst, hbelow, hfits, hcarries'.trans hcarries⟩

/-- Between rounds, every place with a state is on the worklist or its run is covered by its frame; `entry` is the
frame in which the method starts. -/
structure Explores (setup : Setup) (entry : Frame) (s : Session) : Prop where
  wellFormed : s.WellFormed setup
  entered : s.Delivered 0 entry
  covered : ∀ p st, s.states.get? p = some st → p ∈ s.worklist ∨
    ∃ (index : Nat) (i : Instruction), setup.body.get? index = some i ∧ i.position = p ∧
      Covers setup s.worklist s index st.frame
  visited : ∀ p, s.visited.contains p = true → ∃ q st, s.states.get? q = some st ∧ setup.RunsTo q p
  rets : ∀ p f, s.retFrames.get? p = some f → s.visited.contains p = true ∧
    ∃ (index : Nat) (i : Instruction) (slot : UInt16), setup.body.get? index = some i ∧ i.position = p ∧
      i.flow = .ret slot ∧ s.Arrives setup index f
  bound : ∀ jsr ret, s.jsrRets.get? jsr = some ret → ∃ (index : Nat) (i : Instruction) (f : Frame) (site : CallSite),
    setup.body.get? index = some i ∧ i.position = ret ∧ s.calls.get? jsr = some site ∧ ReturnsFrom i f site ∧
      s.Arrives setup index f

/-- Taking a place off the worklist, and marking its state, loses nothing that is known. -/
theorem learns_pop {state : TypeState} (rest : List Nat) (hstate : s.states.get? position = some state) :
    s.Learns { s with worklist := rest, states := s.states.insert position { state with visited := true } } := by
  have hget : ∀ p, ((s.states.insert position { state with visited := true }).get? p).map TypeState.frame
      = (s.states.get? p).map TypeState.frame := by
    intro p
    by_cases hp : position = p
    · subst hp
      rw [PositionMap.get?_insert_self _ (PositionMap.lt_bound_of_get? hstate), hstate]
      rfl
    · rw [PositionMap.get?_insert_ne _ _ hp]
  have hsame : s.Learns s := (Grows.refl s).toLearns
  refine { hsame with states := ?_, changed := ?_, called := fun _ _ => Or.inl }
  · intro p st hst
    have hp := hget p
    rw [hst] at hp
    obtain ⟨st', hst', hframe⟩ := Option.map_eq_some_iff.mp hp
    refine ⟨st', hst', ?_⟩
    rw [hframe]
    exact .refl _
  · intro p st' hst'
    right
    have hp := hget p
    rw [show (s.states.insert position { state with visited := true }).get? p = some st' from hst'] at hp
    obtain ⟨st, hst, hframe⟩ := Option.map_eq_some_iff.mp hp.symm
    exact ⟨st, hst, hframe⟩

theorem learns_worklist (s : Session) (rest : List Nat) : s.Learns { s with worklist := rest } :=
  { (Grows.refl s).toLearns with
    changed := fun _ st hst => Or.inr ⟨st, hst, rfl⟩
    called := fun _ _ => Or.inl }

/-- A covered run begins with a handled instruction. -/
theorem Covers.handled {pending : List Nat} (h : Covers setup pending s index frame)
    (hi : setup.body.get? index = some i) : Handled setup pending s i frame := by
  cases h with
  | left hi' hhandled =>
    obtain rfl := Option.some.inj (hi.symm.trans hi')
    exact hhandled
  | met hi' hhandled =>
    obtain rfl := Option.some.inj (hi.symm.trans hi')
    exact hhandled
  | on hi' hhandled =>
    obtain rfl := Option.some.inj (hi.symm.trans hi')
    exact hhandled

/-- The runs of other places stay covered while the run of a place is looked at. -/
theorem Covers.after {first : Nat} {rest : List Nat} (hp : setup.Prepared code)
    (hcovers : Covers setup (position :: rest) s first frame) (hlearns : s.Learns t) (hwork : rest ⊆ t.worklist)
    (hi : setup.body.get? index = some i) (hposition : i.position = position)
    (hrets : ∀ p, t.retFrames.get? p = s.retFrames.get? p ∨
      ∃ last k, setup.Runs index last ∧ setup.body.get? last = some k ∧ k.position = p)
    (hown : ∀ last, setup.Runs index last → setup.Runs first last → last = index)
    (hhandled : setup.Runs first index → ∀ f, Handled setup (position :: rest) s i f → Handled setup t.worklist t i f) :
    Covers setup t.worklist t first frame := by
  refine hcovers.map hlearns ?_
  intro last k f hruns hk hold
  by_cases hlast : last = index
  · subst hlast
    obtain rfl := Option.some.inj (hi.symm.trans hk)
    exact hhandled hruns f hold
  · have hne : k.position ≠ position := by
      intro heq
      exact hlast (hp.tiles.index_eq hk hi (heq.trans hposition.symm))
    refine hold.mono hlearns (List.Subset.refl _) ?_ ?_
    · intro _ hmem
      exact hwork ((List.mem_cons.mp hmem).resolve_left hne)
    · rcases hrets k.position with hsame | ⟨last', k', hruns', hk', hposition'⟩
      · exact hsame
      · obtain rfl := hp.tiles.index_eq hk' hk hposition'
        exact absurd (hown last' hruns' hruns) hlast

/-- What was visited lies on a run, after the run of a place was looked at. -/
theorem Explores.visited_after {entry : Frame} (h : Explores setup entry s) (hint : Interprets setup u index frame t)
    (hsame : u.visited = s.visited) (hlearns : s.Learns t)
    (hruns : ∀ last i, setup.Runs index last → setup.body.get? last = some i →
      ∃ q st, t.states.get? q = some st ∧ setup.RunsTo q i.position) :
    ∀ p, t.visited.contains p = true → ∃ q st, t.states.get? q = some st ∧ setup.RunsTo q p := by
  intro p hvisited
  rcases hint.visited p hvisited with hold | ⟨last, i, hrun, hi, rfl⟩
  · rw [hsame] at hold
    obtain ⟨q, st, hst, hto⟩ := h.visited p hold
    obtain ⟨st', hst', -⟩ := hlearns.states q st hst
    exact ⟨q, st', hst', hto⟩
  · exact hruns last i hrun hi

theorem Explores.rets_after {entry : Frame} (h : Explores setup entry s) (hint : Interprets setup u index frame t)
    (hsame : u.retFrames = s.retFrames) (hlearns : s.Learns t) (harrives : t.Arrives setup index frame) :
    ∀ p f, t.retFrames.get? p = some f → t.visited.contains p = true ∧
      ∃ (index : Nat) (i : Instruction) (slot : UInt16), setup.body.get? index = some i ∧ i.position = p ∧
        i.flow = .ret slot ∧ t.Arrives setup index f := by
  intro p f hget
  rcases hint.retFrames p with hold | ⟨last, i, f', hcarries, hi, hposition, ⟨slot, hflow⟩, hget', hvisited⟩
  · rw [hold, hsame] at hget
    obtain ⟨hvisited, index', i, slot, hi, hposition, hflow, harrives'⟩ := h.rets p f hget
    exact ⟨hlearns.visited p hvisited, index', i, slot, hi, hposition, hflow, harrives'.mono hlearns⟩
  · obtain rfl := Option.some.inj (hget.symm.trans hget')
    exact ⟨hvisited, last, i, slot, hi, hposition, hflow, harrives.trans hcarries⟩

theorem Explores.bound_after {entry : Frame} (h : Explores setup entry s) (hint : Interprets setup u index frame t)
    (hsame : u.jsrRets = s.jsrRets) (hlearns : s.Learns t) (harrives : t.Arrives setup index frame) :
    ∀ jsr ret, t.jsrRets.get? jsr = some ret → ∃ (index : Nat) (i : Instruction) (f : Frame) (site : CallSite),
      setup.body.get? index = some i ∧ i.position = ret ∧ t.calls.get? jsr = some site ∧ ReturnsFrom i f site ∧
        t.Arrives setup index f := by
  intro jsr ret hbound
  rcases hint.bound jsr ret hbound with hold | ⟨last, i, f, site, hcarries, hi, hposition, hsite, hreturns⟩
  · rw [hsame] at hold
    obtain ⟨index', i, f, site, hi, hposition, hsite, ⟨slot, hflow, haddress⟩, harrives'⟩ := h.bound jsr ret hold
    obtain ⟨site', hsite', hentry, -⟩ := hlearns.calls jsr site hsite
    exact ⟨index', i, f, site', hi, hposition, hsite', ⟨slot, hflow, by rw [hentry]; exact haddress⟩,
      harrives'.mono hlearns⟩
  · exact ⟨last, i, f, site, hi, hposition, hsite, hreturns, harrives.trans hcarries⟩

theorem Delivered.isSome (h : s.Delivered position frame) : (s.states.get? position).isSome := by
  obtain ⟨st, hst, -⟩ := h
  exact Option.isSome_of_eq_some hst

/-- Looking at the run of a place with a state keeps the invariant. -/
theorem explores_state {entry : Frame} {rest : List Nat} {state : TypeState} (hp : setup.Prepared code)
    (h : Explores setup entry s) (hwork : s.worklist = position :: rest) (hstate : s.states.get? position = some state)
    (hi : setup.body.get? index = some i) (hposition : i.position = position)
    (hint : Interprets setup { s with worklist := rest, states := s.states.insert position { state with visited := true } }
      index state.frame t) : Explores setup entry t := by
  have hhead : setup.IsHead position := (h.wellFormed.states position state hstate).2
  have hlearns := (learns_pop rest hstate).trans hint.grows
  have hrest : rest ⊆ t.worklist := hint.grows.worklist
  have harrives : t.Arrives setup index state.frame := by
    obtain ⟨st', hst', hbelow⟩ := hlearns.states position state hstate
    rw [← hposition] at hst'
    exact ⟨index, i, st', state.frame, hi, hst', hbelow, (h.wellFormed.states position state hstate).1, .refl _ _⟩
  refine ⟨hint.wellFormed, h.entered.mono hlearns, ?_, ?_, h.rets_after hint rfl hlearns harrives,
    h.bound_after hint rfl hlearns harrives⟩
  · intro q st' hst'
    rcases hlearns.changed q st' hst' with hwork' | ⟨st, hst, hframe⟩
    · exact Or.inl hwork'
    · rw [← hframe]
      by_cases hq : q = position
      · subst hq
        obtain rfl := Option.some.inj (hstate.symm.trans hst)
        exact Or.inr ⟨index, i, hi, hposition, hint.covers⟩
      · rcases h.covered q st hst with hmem | ⟨first, j, hj, hposition', hcovers⟩
        · rw [hwork] at hmem
          exact Or.inl (hrest ((List.mem_cons.mp hmem).resolve_left hq))
        · right
          have hhead' : setup.IsHead j.position := by
            rw [hposition']
            exact (h.wellFormed.states q st hst).2
          -- runs from two heads have no instruction in common
          have happart : ∀ last, setup.Runs index last → setup.Runs first last → False := by
            intro last hruns hruns'
            obtain rfl := hruns.first_eq hruns' hi (hposition ▸ hhead) hj hhead'
            obtain rfl := Option.some.inj (hi.symm.trans hj)
            exact hq (hposition'.symm.trans hposition)
          rw [hwork] at hcovers
          refine ⟨first, j, hj, hposition', hcovers.after hp hlearns hrest hi hposition ?_ ?_ ?_⟩
          · intro p
            rcases hint.retFrames p with hsame | ⟨last, k, f, hruns, hk, hk', -⟩
            · exact Or.inl hsame
            · exact Or.inr ⟨last, k, hruns.runs, hk, hk'⟩
          · intro last hruns hruns'
            exact (happart last hruns hruns').elim
          · intro hruns f _
            exact (happart index (.refl _ _) hruns).elim
  · refine h.visited_after hint rfl hlearns ?_
    intro last k hruns hk
    obtain ⟨st', hst', -⟩ := hlearns.states position state hstate
    exact ⟨position, st', hst', index, last, i, k, hi, hposition, hruns, hk, rfl⟩

/-- Looking again at a `ret`, with the frame it was last looked at with, keeps the invariant. -/
theorem explores_ret {entry : Frame} {rest : List Nat} (hp : setup.Prepared code) (h : Explores setup entry s)
    (hwork : s.worklist = position :: rest) (hstate : s.states.get? position = none)
    (hframe : s.retFrames.get? position = some frame) (hi : setup.body.get? index = some i)
    (hposition : i.position = position) (hint : Interprets setup { s with worklist := rest } index frame t) :
    Explores setup entry t := by
  obtain ⟨hseen, index', i', slot, hi', hposition', hflow, harrives⟩ := h.rets position frame hframe
  obtain rfl := hp.tiles.index_eq hi hi' (hposition.trans hposition'.symm)
  obtain rfl := Option.some.inj (hi.symm.trans hi')
  have hlearns := (learns_worklist s rest).trans hint.grows
  have hrest : rest ⊆ t.worklist := hint.grows.worklist
  -- a `ret` is a run of its own
  have hsingle : ∀ last, setup.Runs index last → last = index := by
    intro last hruns
    by_contra hne
    have hle := hruns.le
    obtain ⟨k, hk, hon⟩ := hruns.on index (Nat.le_refl _) (by omega)
    obtain rfl := Option.some.inj (hi.symm.trans hk)
    simp [Instruction.runsOn, hflow] at hon
  refine ⟨hint.wellFormed, h.entered.mono hlearns, ?_, ?_, h.rets_after hint rfl hlearns (harrives.mono hlearns),
    h.bound_after hint rfl hlearns (harrives.mono hlearns)⟩
  · intro q st' hst'
    rcases hlearns.changed q st' hst' with hwork' | ⟨st, hst, hsame⟩
    · exact Or.inl hwork'
    · rw [← hsame]
      rcases h.covered q st hst with hmem | ⟨first, j, hj, hfirst, hcovers⟩
      · rw [hwork] at hmem
        rcases List.mem_cons.mp hmem with rfl | hmem
        · rw [hstate] at hst
          simp at hst
        · exact Or.inl (hrest hmem)
      · right
        rw [hwork] at hcovers
        refine ⟨first, j, hj, hfirst, hcovers.after hp hlearns hrest hi hposition ?_ ?_ ?_⟩
        · intro p
          rcases hint.retFrames p with hsame | ⟨last, k, f, hruns, hk, hk', -⟩
          · exact Or.inl hsame
          · exact Or.inr ⟨last, k, hruns.runs, hk, hk'⟩
        · intro last hruns _
          exact hsingle last hruns
        · intro _ f hhandled
          -- the frame at the `ret` is the one it is looked at with again
          have hf := hhandled.flow
          unfold FlowHandled at hf
          simp only [hflow] at hf
          rw [hposition, hframe] at hf
          rw [← Option.some.inj hf.1]
          exact hint.covers.handled hi
  · refine h.visited_after hint rfl hlearns ?_
    intro last k hruns hk
    obtain rfl := hsingle last hruns
    obtain rfl := Option.some.inj (hi.symm.trans hk)
    obtain ⟨q, st, hst, hto⟩ := h.visited position hseen
    obtain ⟨st', hst', -⟩ := hlearns.states q st hst
    exact ⟨q, st', hst', hposition ▸ hto⟩

/-- Taking a place off the worklist at which there is nothing to look at keeps the invariant. -/
theorem explores_nothing {entry : Frame} {rest : List Nat} (h : Explores setup entry s)
    (hwork : s.worklist = position :: rest) (hstate : s.states.get? position = none)
    (hframe : s.retFrames.get? position = none) : Explores setup entry { s with worklist := rest } := by
  refine ⟨h.wellFormed.congr rfl rfl rfl rfl rfl rfl rfl, h.entered, ?_, h.visited, h.rets, h.bound⟩
  intro q st hst
  rcases h.covered q st hst with hmem | ⟨first, j, hj, hfirst, hcovers⟩
  · rw [hwork] at hmem
    rcases List.mem_cons.mp hmem with rfl | hmem
    · exact absurd hst (by rw [hstate]; simp)
    · exact Or.inl hmem
  · refine Or.inr ⟨first, j, hj, hfirst, hcovers.map (learns_worklist s rest) ?_⟩
    intro last k f _ _ hhandled
    refine hhandled.mono (learns_worklist s rest) (List.Subset.refl _) ?_ rfl
    rintro ⟨slot, hflow⟩ hmem
    rw [hwork] at hmem
    rcases List.mem_cons.mp hmem with heq | hmem
    · have hf := hhandled.flow
      unfold FlowHandled at hf
      simp only [hflow] at hf
      rw [heq, hframe] at hf
      simp at hf
    · exact hmem

/-- The place that a round looks at is the start of an instruction, and its run is looked at. -/
theorem interpretAt_spec (hp : setup.Prepared code) (hwf : s.WellFormed setup) (hzero : (s.states.get? 0).isSome)
    (hframe : frame.Fits setup) (h : s.interpretAt setup position frame = .ok t) :
    ∃ (index : Nat) (i : Instruction), setup.body.get? index = some i ∧ i.position = position ∧
      Interprets setup s index frame t := by
  unfold interpretAt at h
  split at h
  · simp [reject] at h
  · rename_i index hindex
    obtain ⟨i, hi, hposition⟩ := hp.tiles.indexOf?_eq_some_iff.mp hindex
    refine ⟨index, i, hi, hposition, ?_⟩
    rcases interpret_spec hp hwf hzero hframe hi (Nat.le_of_eq hposition.symm) h with ⟨⟨hne, -⟩, -⟩ | ⟨-, hint⟩
    · exact absurd hposition hne
    · exact hint

/-- A round keeps the invariant. -/
theorem explores_round {entry : Frame} {rest : List Nat} (hp : setup.Prepared code) (h : Explores setup entry s)
    (hwork : s.worklist = position :: rest) (hround : { s with worklist := rest }.round setup position = .ok t) :
    Explores setup entry t := by
  unfold round at hround
  dsimp only at hround
  split at hround
  · rename_i state hstate
    obtain ⟨hfits, hhead⟩ := h.wellFormed.states position state hstate
    have hwf : { s with worklist := rest, states := s.states.insert position { state with visited := true } }.WellFormed
        setup := (h.wellFormed.congr (t := { s with worklist := rest }) rfl rfl rfl rfl rfl rfl rfl).insertState hfits hhead
    obtain ⟨index, i, hi, hposition, hint⟩ :=
      interpretAt_spec hp hwf (h.entered.mono (learns_pop rest hstate)).isSome hfits hround
    exact explores_state hp h hwork hstate hi hposition hint
  · rename_i frame hstate hframe
    obtain ⟨index, i, hi, hposition, hint⟩ := interpretAt_spec hp
      (h.wellFormed.congr (t := { s with worklist := rest }) rfl rfl rfl rfl rfl rfl rfl) h.entered.isSome
      (h.wellFormed.retFrames position frame hframe) hround
    exact explores_ret hp h hwork hstate hframe hi hposition hint
  · rename_i hstate hframe
    obtain rfl := Except.ok.inj hround
    exact explores_nothing h hwork hstate hframe

/-- All rounds keep the invariant, and at the end nothing is left to look at. -/
theorem explores_run {entry : Frame} (hp : setup.Prepared code) (h : Explores setup entry s)
    (hrun : s.run setup = .ok t) : Explores setup entry t ∧ t.worklist = [] := by
  fun_induction run setup s with
  | case1 s hwork =>
    obtain rfl := Except.ok.inj hrun
    exact ⟨h, hwork⟩
  | case2 => simp at hrun
  | case3 s position rest hwork u hround ih => exact ih (explores_round hp h hwork hround) hrun

end Session

end Bytecode
