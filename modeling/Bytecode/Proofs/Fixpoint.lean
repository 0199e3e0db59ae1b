import Bytecode.Proofs.Exploration

/-!
# The fixed point of inference

When a method is accepted, nothing is left on the worklist, so every run has been looked at with the frame of
its head.  The frame right before an instruction can then be found again from the states alone.

* `Verified.frameBefore?`: the frame right before an instruction, by running straight-line code again from the
  last place with a state;
* `Settled`: what the analysis of an accepted method ends with (`Method.settled`);
* `Settled.handled`, `Settled.onward`: everything that an instruction does with the frame right before it has
  been seen to, and what it leaves is below the frame right before the next one;
* `Settled.activeAt?_eq`: the subroutines active at an instruction are those of the frame right before it.
-/

namespace Bytecode

/-- What the instruction at a position is run in. -/
def Method.context (m : Method) (position : Nat) : ExecutionContext where
  position
  maxStack := m.code.maxStack.toNat
  thisClass := m.className
  returnType := m.descriptor.returnType
  constants := m.constants

namespace Verified

/-- The frame of the state at an instruction. -/
def stateFrame? (v : Verified) (index : Nat) : Option Frame :=
  (v.body.get? index).bind fun i => (v.states.get? i.position).map TypeState.frame

/-- The frame right before an instruction: that of its state or, where it has none, the one that the
instruction in front leaves. -/
def frameBefore? (v : Verified) (method : Method) : Nat → Option Frame
  | 0 => v.stateFrame? 0
  | index + 1 => (v.stateFrame? (index + 1)).or
      ((v.body.get? index).bind fun i =>
        (v.frameBefore? method index).bind (i.onward (method.context i.position)))

end Verified

/-! ## Before the first round -/

namespace Frame

/-- Values are placed one behind the other into locals that are free, so they stay whole. -/
theorem placeFrom_spec {next : Nat} {locals types placed : List VType} (h : placeFrom next locals types = .ok placed)
    (hpaired : Exec.Paired locals) (hfront : ∀ k u, k + 1 = next → locals[k]? = some u → width u ≠ 2)
    (hfree : ∀ k, next ≤ k → k < locals.length → locals[k]? = some .top) :
    placed.length = locals.length ∧ Exec.Paired placed := by
  induction types generalizing next locals with
  | nil =>
    obtain rfl := Except.ok.inj h
    exact ⟨rfl, hpaired⟩
  | cons t rest ih =>
    unfold placeFrom at h
    split at h
    · simp at h
    · rename_i hroom
      have hwidth : width t = 1 ∨ width t = 2 := by cases t <;> simp [width]
      rw [← @List.length_set _ locals next t]
      apply ih h
      · apply hpaired.set hfront
        intro hwide
        exact hfree (next + 1) (by omega) (by omega)
      · intro k u hk hu
        rw [List.getElem?_set] at hu
        split at hu
        · rename_i heq
          split at hu
          · obtain rfl := Option.some.inj hu
            omega
          · simp at hu
        · rename_i hne
          have hlt : k < locals.length := (List.getElem?_eq_some_iff.mp hu).1
          rw [hfree k (by omega) hlt] at hu
          obtain rfl := Option.some.inj hu
          simp [width]
      · intro k hk hlt
        rw [List.length_set] at hlt
        rw [List.getElem?_set_ne (by omega)]
        exact hfree k (by omega) hlt

theorem fits_entry {setup : Setup} {thisClass : BinaryName} {isStatic isConstructor : Bool}
    {descriptor : MethodDescriptor} {f : Frame}
    (h : entry thisClass isStatic isConstructor descriptor setup.maxLocals = .ok f) : f.Fits setup := by
  unfold entry at h
  obtain ⟨locals, hlocals, h⟩ := bind_eq_ok.mp h
  obtain rfl := pure_eq_ok.mp h
  have hfree : ∀ (k : Nat) (u : VType), (List.replicate setup.maxLocals VType.top)[k]? = some u → u = .top := by
    intro k u hu
    exact List.eq_of_mem_replicate (List.mem_of_getElem? hu)
  obtain ⟨hlength, hpaired⟩ := placeFrom_spec hlocals
    (by
      intro k u hu hwide
      rw [hfree k u hu] at hwide
      simp [width] at hwide)
    (by
      intro k u hk
      omega)
    (by
      intro k _ hlt
      rw [List.getElem?_eq_getElem hlt, hfree k _ (List.getElem?_eq_getElem hlt)])
  refine ⟨?_, hpaired, List.nodup_nil, ?_⟩
  · rw [hlength, List.length_replicate]
  · intro _ t ht
    simp at ht

end Frame

/-- The type that an entry of an exception table catches. -/
def Method.Catches (method : Method) (e : ExceptionHandler) (type : VType) : Prop :=
  if e.catchType = 0 then type = .ofClass .throwable
  else ∃ name, method.constants.classType e.catchType = .ok (.object name) ∧ type = .ofClass name

theorem Method.Catches.isInitialized {method : Method} {e : ExceptionHandler} {type : VType} (h : method.Catches e type) :
    type.isInitialized = true := by
  unfold Method.Catches at h
  split at h
  · rw [h]
    rfl
  · obtain ⟨name, -, rfl⟩ := h
    rfl

theorem Method.Catches.isReference {method : Method} {e : ExceptionHandler} {type : VType} (h : method.Catches e type) :
    type.isReference = true := by
  unfold Method.Catches at h
  split at h
  · rw [h]
    rfl
  · obtain ⟨name, -, rfl⟩ := h
    rfl

namespace Inference

theorem checkPosition_eq_ok {b : Body} {position : Nat} {allowEnd : Bool} {u : Unit} :
    b.checkPosition position allowEnd = .ok u ↔
      (b.indexOf? position).isSome ∨ allowEnd = true ∧ position = b.codeLength := by
  unfold Body.checkPosition
  split
  · rename_i hcheck
    simpa using hcheck
  · rename_i hcheck
    simpa using hcheck

/-- An entry of an exception table is accepted if its positions are starts of instructions in order and its type can
be read.  The range may go up to the end of the code. -/
theorem resolveHandler_eq_ok {method : Method} {body : Body} {e : ExceptionHandler} {h : Handler} :
    resolveHandler method body e = .ok h ↔
      (body.indexOf? e.startPc.toNat).isSome ∧
      ((body.indexOf? e.endPc.toNat).isSome ∨ e.endPc.toNat = body.codeLength) ∧
      (body.indexOf? e.handlerPc.toNat).isSome ∧ e.startPc.toNat < e.endPc.toNat ∧
      ∃ type, method.Catches e type ∧ h = ⟨e.startPc.toNat, e.endPc.toNat, e.handlerPc.toNat, type⟩ := by
  unfold resolveHandler Method.Catches
  constructor
  · intro hresolve
    obtain ⟨_, hstart, hresolve⟩ := bind_eq_ok.mp hresolve
    obtain ⟨_, hstop, hresolve⟩ := bind_eq_ok.mp hresolve
    obtain ⟨_, htarget, hresolve⟩ := bind_eq_ok.mp hresolve
    have hstart := checkPosition_eq_ok.mp hstart
    have hstop := checkPosition_eq_ok.mp hstop
    have htarget := checkPosition_eq_ok.mp htarget
    simp only [Bool.false_eq_true, false_and, or_false, true_and] at hstart hstop htarget
    refine ⟨hstart, hstop, htarget, ?_⟩
    dsimp only at hresolve
    by_cases horder : e.endPc.toNat ≤ e.startPc.toNat
    · rw [if_pos horder] at hresolve
      simp [bind, Except.bind, throw, throwThe, MonadExceptOf.throw] at hresolve
    · rw [if_neg horder] at hresolve
      refine ⟨Nat.lt_of_not_le horder, ?_⟩
      by_cases hzero : e.catchType = 0
      · simp only [if_pos hzero] at hresolve ⊢
        exact ⟨_, rfl, (pure_eq_ok.mp hresolve).symm⟩
      · simp only [if_neg hzero] at hresolve ⊢
        obtain ⟨found, hfound, hresolve⟩ := bind_eq_ok.mp hresolve
        cases found with
        | object name => exact ⟨_, ⟨name, mapError_eq_ok.mp hfound, rfl⟩, (pure_eq_ok.mp hresolve).symm⟩
        | array extra element => simp [throw, throwThe, MonadExceptOf.throw] at hresolve
  · rintro ⟨hstart, hstop, htarget, horder, type, hcatches, rfl⟩
    refine bind_eq_ok.mpr ⟨(), checkPosition_eq_ok.mpr (Or.inl hstart), ?_⟩
    refine bind_eq_ok.mpr ⟨(), checkPosition_eq_ok.mpr (hstop.imp_right fun hend => ⟨rfl, hend⟩), ?_⟩
    refine bind_eq_ok.mpr ⟨(), checkPosition_eq_ok.mpr (Or.inl htarget), ?_⟩
    dsimp only
    rw [if_neg (Nat.not_le_of_lt horder)]
    by_cases hzero : e.catchType = 0
    · rw [if_pos hzero] at hcatches ⊢
      rw [hcatches]
      rfl
    · rw [if_neg hzero] at hcatches ⊢
      obtain ⟨name, hname, rfl⟩ := hcatches
      exact bind_eq_ok.mpr ⟨RefType.object name, mapError_eq_ok.mpr hname, rfl⟩

/-- Merge points are the places named by instructions or behind calls, and the targets of handlers. -/
theorem contains_mergePoints {body : Body} {handlers : List Handler} {p : Nat} :
    (mergePoints body handlers).contains p = true ↔ p < body.codeLength + 1 ∧
      ((∃ i ∈ body.toList, p ∈ i.targets ∨ (∃ target, i.flow = .jsr target) ∧ p = i.next) ∨
        ∃ h ∈ handlers, h.target = p) := by
  unfold mergePoints
  rw [PositionSet.contains_insertAll_iff, PositionSet.contains_insertAll_iff, PositionSet.contains_empty,
    PositionSet.size_insertAll, PositionSet.size_empty, List.mem_flatMap, List.mem_map]
  simp only [Bool.false_eq_true, false_or]
  constructor
  · rintro (⟨⟨i, hi, h⟩, hlt⟩ | ⟨h, hlt⟩)
    · refine ⟨hlt, Or.inl ⟨i, hi, ?_⟩⟩
      cases hflow : i.flow <;> simp_all [Instruction.targets]
    · exact ⟨hlt, Or.inr h⟩
  · rintro ⟨hlt, ⟨i, hi, h⟩ | h⟩
    · refine Or.inl ⟨⟨i, hi, ?_⟩, hlt⟩
      cases hflow : i.flow <;> simp_all [Instruction.targets]
    · exact Or.inr ⟨h, hlt⟩

/-- What has to go through before the first round. -/
theorem prepare_eq_ok {recording : Bool} {method : Method} {setup : Setup} {entry : Frame} :
    prepare recording method = .ok (setup, entry) ↔
      ∃ body handlers, Body.decode method.code.bytes = .ok body ∧ 0 < body.size ∧
        method.code.exceptionTable.mapM (resolveHandler method body) = .ok handlers ∧
        Frame.entry method.className method.isStatic method.isConstructor method.descriptor
          method.code.maxLocals.toNat = .ok entry ∧
        setup = ⟨method, body, handlers, mergePoints body handlers, recording⟩ := by
  unfold prepare
  constructor
  · intro h
    obtain ⟨body, hbody, h⟩ := bind_eq_ok.mp h
    dsimp only at h
    by_cases hsize : body.size = 0
    · rw [if_pos hsize] at h
      simp [bind, Except.bind, throw, throwThe, MonadExceptOf.throw] at h
    · rw [if_neg hsize] at h
      obtain ⟨handlers, hhandlers, h⟩ := bind_eq_ok.mp h
      obtain ⟨start, hstart, h⟩ := bind_eq_ok.mp h
      obtain ⟨rfl, rfl⟩ := Prod.mk.inj (pure_eq_ok.mp h)
      exact ⟨body, handlers, hbody, Nat.pos_of_ne_zero hsize, hhandlers, mapError_eq_ok.mp hstart, rfl⟩
  · rintro ⟨body, handlers, hbody, hsize, hhandlers, hentry, rfl⟩
    refine bind_eq_ok.mpr ⟨body, hbody, ?_⟩
    dsimp only
    rw [if_neg (Nat.ne_of_gt hsize)]
    exact bind_eq_ok.mpr ⟨handlers, hhandlers, bind_eq_ok.mpr ⟨entry, mapError_eq_ok.mpr hentry, rfl⟩⟩

/-- What is there before the first round. -/
theorem prepare_spec {recording : Bool} {method : Method} {setup : Setup} {entry : Frame}
    (hfits : method.code.bytes.length < 2 ^ 64) (h : prepare recording method = .ok (setup, entry)) :
    setup.method = method ∧ setup.Prepared method.code.bytes ∧ 0 < setup.body.size ∧
      method.code.exceptionTable.mapM (resolveHandler method setup.body) = .ok setup.handlers ∧
      Frame.entry method.className method.isStatic method.isConstructor method.descriptor
        method.code.maxLocals.toNat = .ok entry := by
  obtain ⟨body, handlers, hbody, hsize, hhandlers, hentry, rfl⟩ := prepare_eq_ok.mp h
  have htiles := Body.decode_tiles hbody hfits
  have hbound : ∀ (index : Nat) (i : Instruction), body.get? index = some i → i.position < body.codeLength := by
    intro index i hi
    rw [htiles.codeLength_eq]
    exact htiles.position_lt_length hi
  have hmem : ∀ (index : Nat) (i : Instruction), body.get? index = some i → i ∈ body.toList := by
    intro index i hi
    rw [← Body.getElem?_toList] at hi
    exact List.mem_of_getElem? hi
  have hresolved : ∀ handler ∈ handlers, (∃ index i, body.get? index = some i ∧ i.position = handler.target) ∧
      handler.catchType.isReference = true := by
    intro handler hhandler
    obtain ⟨e, -, hresolve⟩ := (mem_of_mapM hhandlers).mp hhandler
    obtain ⟨-, -, hsome, -, type, hcatches, rfl⟩ := resolveHandler_eq_ok.mp hresolve
    obtain ⟨index, hindex⟩ := Option.isSome_iff_exists.mp hsome
    obtain ⟨i, hi, hposition⟩ := htiles.indexOf?_eq_some_iff.mp hindex
    exact ⟨⟨index, i, hi, hposition⟩, hcatches.isReference⟩
  refine ⟨rfl, ⟨htiles, ?_, ?_, ?_, fun handler hhandler => (hresolved handler hhandler).2⟩,
    hsize, hhandlers, hentry⟩
  · intro index i hi t ht
    obtain ⟨index', i', hi', rfl⟩ := htiles.target_start hi ht
    have hlt := hbound index' i' hi'
    exact Or.inl (contains_mergePoints.mpr ⟨by omega, Or.inl ⟨i, hmem index i hi, Or.inl ht⟩⟩)
  · intro index i target hi hflow
    have hle := htiles.next_le hi
    rw [← htiles.codeLength_eq] at hle
    exact Or.inl (contains_mergePoints.mpr ⟨by omega,
      Or.inl ⟨i, hmem index i hi, Or.inr ⟨⟨target, hflow⟩, rfl⟩⟩⟩)
  · intro handler hhandler
    obtain ⟨⟨index, i, hi, hposition⟩, -⟩ := hresolved handler hhandler
    have hlt := hbound index i hi
    exact Or.inl (contains_mergePoints.mpr ⟨by omega, Or.inr ⟨handler, hhandler, rfl⟩⟩)

/-- Nothing is known at the start. -/
theorem wellFormed_start (setup : Setup) :
    (Session.start setup.body.codeLength setup.method.code.maxLocals.toNat).WellFormed setup where
  sized := by
    refine ⟨?_, ?_, ?_, ?_, ?_, ?_, ?_⟩
    all_goals simp [Session.start]
  states p st hst := by simp [Session.start] at hst
  calls p call hcall := by simp [Session.start] at hcall
  retFrames p f hf := by simp [Session.start] at hf

/-- Entering the method sets up the invariant of the rounds. -/
theorem explores_entry {setup : Setup} {entry : Frame} {s : Session} (hentry : entry.Fits setup)
    (h : (Session.start setup.body.codeLength setup.method.code.maxLocals.toNat).mergeInto setup 0 entry = .ok s) :
    s.Explores setup entry := by
  obtain ⟨hstep, hwf, hdelivered⟩ := Session.mergeInto_spec (wellFormed_start setup) hentry (Or.inr rfl) h
  refine ⟨hwf, hdelivered, ?_, ?_, ?_, ?_⟩
  · intro p st hst
    rcases hstep.changed p st hst with hwork | ⟨old, hold, -⟩
    · exact Or.inl hwork
    · simp [Session.start] at hold
  · intro p hvisited
    rw [hstep.sameVisited] at hvisited
    simp [Session.start] at hvisited
  · intro p f hf
    rw [hstep.retFrames] at hf
    simp [Session.start] at hf
  · intro jsr ret hbound
    rw [Session.mergeInto_eq h] at hbound
    simp [Session.start] at hbound

end Inference

/-! ## After the last round -/

/-- What the analysis of an accepted method ends with: the session `s`, in which every run is covered and from
which `v` is read off. -/
structure Settled (method : Method) (v : Verified) (setup : Setup) (s : Session) : Prop where
  method_eq : setup.method = method
  prepared : setup.Prepared method.code.bytes
  nonempty : 0 < setup.body.size
  handlers : method.code.exceptionTable.mapM (Inference.resolveHandler method setup.body) = .ok setup.handlers
  explores : ∃ entry, s.Explores setup entry ∧ entry.Fits setup ∧
    Inference.prepare false method = .ok (setup, entry) ∧ Inference.analyse setup entry = .ok s
  idle : s.worklist = []
  verified : v = s.verified setup.body

/-- An accepted method has been explored to the end. -/
theorem Method.settled {method : Method} {v : Verified} (hfits : method.code.bytes.length < 2 ^ 64)
    (h : method.verify = .ok v) : ∃ setup s, Settled method v setup s := by
  unfold Method.verify Inference.verify at h
  dsimp only at h
  cases hprepare : Inference.prepare false method with
  | error e => simp [hprepare] at h
  | ok prepared =>
    obtain ⟨setup, entry⟩ := prepared
    simp only [hprepare] at h
    cases hanalyse : Inference.analyse setup entry with
    | error e => simp [hanalyse] at h
    | ok s =>
      simp only [hanalyse] at h
      obtain rfl := Except.ok.inj h
      obtain ⟨rfl, hp, hsize, hhandlers, hentry⟩ := Inference.prepare_spec hfits hprepare
      have hrounds := hanalyse
      unfold Inference.analyse at hrounds
      obtain ⟨s₀, hs₀, hrun⟩ := bind_eq_ok.mp hrounds
      obtain ⟨hexplores, hidle⟩ :=
        Session.explores_run hp (Inference.explores_entry (Frame.fits_entry hentry) hs₀) hrun
      exact ⟨setup, s, rfl, hp, hsize, hhandlers, ⟨entry, hexplores, Frame.fits_entry hentry, hprepare, hanalyse⟩,
        hidle, rfl⟩

namespace Settled

variable {method : Method} {v : Verified} {setup : Setup} {s : Session} {index : Nat} {i : Instruction} {frame : Frame}

theorem body_eq (h : Settled method v setup s) : v.body = setup.body := by
  rw [h.verified]
  rfl

theorem states_eq (h : Settled method v setup s) : v.states = s.states := by
  rw [h.verified]
  rfl

theorem visited_eq (h : Settled method v setup s) : v.visited = s.visited := by
  rw [h.verified]
  rfl

theorem subroutines_eq (h : Settled method v setup s) : v.subroutines = s.registry := by
  rw [h.verified]
  rfl

theorem context_eq (h : Settled method v setup s) (position : Nat) :
    setup.context position = method.context position := by
  rw [← h.method_eq]
  rfl

theorem tiles (h : Settled method v setup s) : v.body.Tiles method.code.bytes := by
  rw [h.body_eq]
  exact h.prepared.tiles

theorem wellFormed (h : Settled method v setup s) : s.WellFormed setup := by
  obtain ⟨entry, hexplores, -⟩ := h.explores
  exact hexplores.wellFormed

theorem stateFrame?_eq_some (h : Settled method v setup s) (hi : v.body.get? index = some i) :
    v.stateFrame? index = some frame ↔ ∃ st, s.states.get? i.position = some st ∧ st.frame = frame := by
  unfold Verified.stateFrame?
  rw [hi, Option.bind_some, h.states_eq, Option.map_eq_some_iff]

/-- Every state stands at an instruction. -/
theorem exists_of_state (h : Settled method v setup s) {position : Nat} {st : TypeState}
    (hst : s.states.get? position = some st) : ∃ index i, v.body.get? index = some i ∧ i.position = position := by
  obtain ⟨entry, hexplores, -⟩ := h.explores
  rcases hexplores.covered position st hst with hwork | ⟨index, i, hi, hposition, -⟩
  · rw [h.idle] at hwork
    simp at hwork
  · rw [← h.body_eq] at hi
    exact ⟨index, i, hi, hposition⟩

theorem frameBefore?_of_state (h : Settled method v setup s) (hi : v.body.get? index = some i) {st : TypeState}
    (hst : s.states.get? i.position = some st) : v.frameBefore? method index = some st.frame := by
  have hstate := (h.stateFrame?_eq_some hi).mpr ⟨st, hst, rfl⟩
  cases index with
  | zero => exact hstate
  | succ index =>
    unfold Verified.frameBefore?
    rw [hstate, Option.some_or]

/-- The run from every instruction that control comes to is covered, from the frame right before it on. -/
theorem covers (h : Settled method v setup s) (hi : v.body.get? index = some i)
    (hframe : v.frameBefore? method index = some frame) : Session.Covers setup [] s index frame := by
  obtain ⟨entry, hexplores, -⟩ := h.explores
  have hstates : ∀ {index i frame}, v.body.get? index = some i → v.stateFrame? index = some frame →
      Session.Covers setup [] s index frame := by
    intro index i frame hi hstate
    obtain ⟨st, hst, rfl⟩ := (h.stateFrame?_eq_some hi).mp hstate
    rcases hexplores.covered i.position st hst with hmem | ⟨first, j, hj, hposition, hcovers⟩
    · rw [h.idle] at hmem
      simp at hmem
    · rw [h.body_eq] at hi
      obtain rfl := h.prepared.tiles.index_eq hj hi hposition
      rw [h.idle] at hcovers
      exact hcovers
  induction index generalizing i frame with
  | zero => exact hstates hi hframe
  | succ index ih =>
    unfold Verified.frameBefore? at hframe
    rcases Option.or_eq_some_iff.mp hframe with hstate | ⟨hnone, hfront⟩
    · exact hstates hi hstate
    · -- the instruction in front runs on to one without a state
      obtain ⟨j, hj, hfront⟩ := Option.bind_eq_some_iff.mp hfront
      obtain ⟨before, hbefore, honward⟩ := Option.bind_eq_some_iff.mp hfront
      have hcovers := ih hj hbefore
      rw [← h.context_eq] at honward
      rw [h.body_eq] at hj
      cases hcovers with
      | left hj' _ hleft =>
        obtain rfl := Option.some.inj (hj.symm.trans hj')
        rw [honward] at hleft
        simp at hleft
      | met hj' _ _ hi' _ hdelivered =>
        rw [h.body_eq] at hi
        obtain rfl := Option.some.inj (hi.symm.trans hi')
        obtain ⟨st, hst, -⟩ := hdelivered
        rw [← h.body_eq] at hi
        rw [(h.stateFrame?_eq_some hi).mpr ⟨st, hst, rfl⟩] at hnone
        simp at hnone
      | on hj' _ hnext _ _ hrest =>
        obtain rfl := Option.some.inj (hj.symm.trans hj')
        obtain rfl := Option.some.inj (honward.symm.trans hnext)
        exact hrest

/-- Everything that an instruction does with the frame right before it has been seen to. -/
theorem handled (h : Settled method v setup s) (hi : v.body.get? index = some i)
    (hframe : v.frameBefore? method index = some frame) : Session.Handled setup [] s i frame := by
  refine (h.covers hi hframe).handled ?_
  rw [← h.body_eq]
  exact hi

/-- A frame delivered to a place is below the frame right before the instruction there. -/
theorem arrives (h : Settled method v setup s) {position : Nat} (hdelivered : s.Delivered position frame)
    (hi : v.body.get? index = some i) (hposition : i.position = position) :
    ∃ after, v.frameBefore? method index = some after ∧ frame.Below after := by
  obtain ⟨st, hst, hbelow⟩ := hdelivered
  rw [← hposition] at hst
  exact ⟨st.frame, h.frameBefore?_of_state hi hst, hbelow⟩

/-- An instruction that runs on leaves a frame for the next one, below the frame right before that. -/
theorem onward (h : Settled method v setup s) (hi : v.body.get? index = some i)
    (hframe : v.frameBefore? method index = some frame) (hon : i.runsOn = true) :
    ∃ next i' after, i.onward (method.context i.position) frame = some next ∧ v.body.get? (index + 1) = some i' ∧
      v.frameBefore? method (index + 1) = some after ∧ next.Below after := by
  have hcovers := h.covers hi hframe
  rw [h.body_eq] at hi ⊢
  cases hcovers with
  | left hi' hhandled hleft =>
    obtain rfl := Option.some.inj (hi.symm.trans hi')
    obtain ⟨next, hnext⟩ := hhandled.onward_of_runsOn hon
    rw [hnext] at hleft
    simp at hleft
  | met hi' _ hnext hnext' _ hdelivered =>
    obtain rfl := Option.some.inj (hi.symm.trans hi')
    rw [h.context_eq] at hnext
    obtain ⟨after, hafter, hbelow⟩ := h.arrives hdelivered (by rw [h.body_eq]; exact hnext') rfl
    exact ⟨_, _, after, hnext, hnext', hafter, hbelow⟩
  | @on _ _ i' _ next hi' _ hnext hnext' hhead _ =>
    obtain rfl := Option.some.inj (hi.symm.trans hi')
    rw [h.context_eq] at hnext
    refine ⟨next, i', next, hnext, hnext', ?_, .refl _⟩
    have hbody := h.body_eq
    -- only heads have a state
    have hstate : v.stateFrame? (index + 1) = none := by
      rw [Option.eq_none_iff_forall_ne_some]
      intro f hf
      obtain ⟨st, hst, -⟩ := (h.stateFrame?_eq_some (by rw [hbody]; exact hnext')).mp hf
      exact hhead (h.wellFormed.states _ st hst).2
    unfold Verified.frameBefore?
    rw [hstate, Option.none_or, hbody, hi, Option.bind_some, hframe, Option.bind_some, hnext]

/-- What is carried along a run from below the frame right before its start is below the frame right before its end. -/
theorem carried (h : Settled method v setup s) {first last : Nat} {start final before : Frame}
    (hcarries : setup.Carries first start last final) (hfits : start.Fits setup)
    (hbefore : v.frameBefore? method first = some before) (hbelow : start.Below before) :
    ∃ after, v.frameBefore? method last = some after ∧ final.Below after := by
  induction hcarries generalizing before with
  | refl => exact ⟨before, hbefore, hbelow⟩
  | @step index last i i' frame next final hi hnext hi' hhead _ ih =>
    rw [← h.body_eq] at hi
    obtain ⟨next', j, after, hnext', -, hafter, hbelow'⟩ := h.onward hi hbefore (Instruction.runsOn_of_onward hnext)
    rw [h.context_eq] at hnext
    have hmono := Instruction.onward_mono hbelow hfits.paired hnext hnext'
    rw [← h.context_eq] at hnext
    exact ih (hfits.onward hnext) hafter (hmono.trans hbelow')

/-- Control that came to an instruction during the analysis came with a frame below the one right before it. -/
theorem below_of_arrives (h : Settled method v setup s) (harrives : s.Arrives setup index frame) :
    ∃ after, v.frameBefore? method index = some after ∧ frame.Below after := by
  obtain ⟨first, j, st, start, hj, hst, hbelow, hfits, hcarries⟩ := harrives
  rw [← h.body_eq] at hj
  exact h.carried hcarries hfits (h.frameBefore?_of_state hj hst) hbelow

/-- Control comes along a run from its start to its end. -/
theorem frameBefore?_of_runs (h : Settled method v setup s) {first last : Nat} (hruns : setup.Runs first last)
    (hfirst : (v.frameBefore? method first).isSome) : (v.frameBefore? method last).isSome := by
  obtain ⟨distance, rfl⟩ := Nat.exists_eq_add_of_le hruns.le
  induction distance with
  | zero => exact hfirst
  | succ distance ih =>
    have hshorter : setup.Runs first (first + distance) :=
      ⟨Nat.le_add_right _ _, fun k hk hlt => hruns.on k hk (by omega),
        fun k j hk hle hj => hruns.inside k j hk (by omega) hj⟩
    obtain ⟨f, hf⟩ := Option.isSome_iff_exists.mp (ih hshorter)
    obtain ⟨j, hj, hon⟩ := hruns.on (first + distance) (by omega) (by omega)
    rw [← h.body_eq] at hj
    obtain ⟨next, i', after, -, -, hafter, -⟩ := h.onward hj hf hon
    exact Option.isSome_of_eq_some hafter

/-- The instructions that were looked at are those that have a frame right before them. -/
theorem visited_iff (h : Settled method v setup s) (hi : v.body.get? index = some i) :
    v.visited.contains i.position = true ↔ (v.frameBefore? method index).isSome := by
  rw [h.visited_eq]
  constructor
  · intro hvisited
    obtain ⟨entry, hexplores, -⟩ := h.explores
    obtain ⟨q, st, hst, first, last, j, k, hj, rfl, hruns, hk, hposition⟩ := hexplores.visited i.position hvisited
    have hbody := h.body_eq
    rw [← hbody] at hj hk
    obtain rfl := h.tiles.index_eq hk hi hposition
    refine h.frameBefore?_of_runs hruns ?_
    rw [h.frameBefore?_of_state hj hst]
    rfl
  · intro hsome
    obtain ⟨f, hf⟩ := Option.isSome_iff_exists.mp hsome
    exact (h.handled hi hf).visited

/-- The subroutines active at the instruction with an index, from those of the instruction in front. -/
theorem active_step (h : Settled method v setup s) (hi : v.body.get? index = some i) (current : Option Nesting)
    (hcurrent : ∀ k, index = k + 1 → current = (v.frameBefore? method k).map Frame.nesting) :
    (if v.visited.contains i.position then
      match v.states.get? i.position with
      | some state => some state.frame.nesting
      | none => current
    else none) = (v.frameBefore? method index).map Frame.nesting := by
  by_cases hvisited : v.visited.contains i.position = true
  · rw [if_pos hvisited]
    obtain ⟨f, hf⟩ := Option.isSome_iff_exists.mp ((h.visited_iff hi).mp hvisited)
    cases hstate : v.states.get? i.position with
    | some st =>
      rw [h.states_eq] at hstate
      rw [h.frameBefore?_of_state hi hstate]
      rfl
    | none =>
      -- control comes from the instruction in front, which keeps the nesting
      have hnone : v.stateFrame? index = none := by
        unfold Verified.stateFrame?
        rw [hi, Option.bind_some, hstate]
        rfl
      rw [hf]
      cases index with
      | zero =>
        unfold Verified.frameBefore? at hf
        rw [hnone] at hf
        simp at hf
      | succ k =>
        unfold Verified.frameBefore? at hf
        rw [hnone, Option.none_or] at hf
        obtain ⟨j, hj, hf⟩ := Option.bind_eq_some_iff.mp hf
        obtain ⟨before, hbefore, honward⟩ := Option.bind_eq_some_iff.mp hf
        rw [hcurrent k rfl, hbefore, Option.map_some, Option.map_some,
          (Instruction.onward_effect Exec.sameShape_effect honward).2]
  · rw [if_neg hvisited]
    have hnone : v.frameBefore? method index = none := by
      rw [← Option.not_isSome_iff_eq_none, ← h.visited_iff hi]
      exact hvisited
    rw [hnone]
    rfl

theorem activeOnto_spec (h : Settled method v setup s) (instructions : List Instruction) (front : Array (Option Nesting))
    (current : Option Nesting) (hrest : instructions = v.body.toList.drop front.size)
    (hcurrent : ∀ k, front.size = k + 1 → current = (v.frameBefore? method k).map Frame.nesting)
    (hfront : ∀ k < front.size, front[k]? = some ((v.frameBefore? method k).map Frame.nesting)) :
    ∀ k < v.body.size, (Verified.activeOnto v.states v.visited current front instructions)[k]?
      = some ((v.frameBefore? method k).map Frame.nesting) := by
  have hsize : v.body.toList.length = v.body.size := by
    unfold Body.toList Tiling.items Body.size Tiling.size
    rw [List.length_map, Array.length_toList]
  induction instructions generalizing front current with
  | nil =>
    intro k hk
    have hlength := congrArg List.length hrest
    rw [List.length_nil, List.length_drop, hsize] at hlength
    exact hfront k (by omega)
  | cons i rest ih =>
    have hget : v.body.get? front.size = some i := by
      rw [← Body.getElem?_toList, ← Nat.add_zero front.size, ← List.getElem?_drop, ← hrest, List.getElem?_cons_zero]
    have hstep := h.active_step hget current hcurrent
    unfold Verified.activeOnto
    dsimp only
    refine ih _ _ ?_ ?_ ?_
    · rw [Array.size_push, ← List.drop_drop, ← hrest, List.drop_one, List.tail_cons]
    · intro k hk
      rw [Array.size_push] at hk
      obtain rfl : front.size = k := by omega
      exact hstep
    · intro k hk
      rw [Array.size_push] at hk
      rcases Nat.lt_or_eq_of_le (Nat.le_of_lt_succ hk) with hlt | rfl
      · rw [Array.getElem?_push_lt hlt, ← hfront k hlt, Array.getElem?_eq_getElem hlt]
      · rw [Array.getElem?_push_size]
        exact congrArg some hstep

/-- The subroutines active at an instruction are those of the frame right before it. -/
theorem activeAt?_eq (h : Settled method v setup s) (hi : v.body.get? index = some i) :
    v.activeAt? index = (v.frameBefore? method index).map Frame.nesting := by
  have hactive : v.active = Verified.activeOnto v.states v.visited none #[] v.body.toList := by
    rw [h.verified]
    rfl
  have hlt : index < v.body.size := Body.Laid.get?_isSome_iff.mp (Option.isSome_of_eq_some hi)
  unfold Verified.activeAt?
  rw [hactive, h.activeOnto_spec v.body.toList #[] none rfl (by simp) (by simp) index hlt]
  rfl

/-- A place that a frame was delivered to is looked at with the subroutines of the frame active, or fewer. -/
theorem active_of_delivered (h : Settled method v setup s) {position : Nat} (hdelivered : s.Delivered position frame) :
    ∃ index i nesting, v.body.get? index = some i ∧ i.position = position ∧ v.activeAt? index = some nesting ∧
      frame.nesting.Within nesting := by
  obtain ⟨st, hst, hbelow⟩ := hdelivered
  obtain ⟨index, i, hi, rfl⟩ := h.exists_of_state hst
  refine ⟨index, i, st.frame.nesting, hi, rfl, ?_, hbelow.nesting⟩
  rw [h.activeAt?_eq hi, h.frameBefore?_of_state hi hst]
  rfl

/-- Handlers with their types read are the entries of the table. -/
theorem mem_handlers_iff (h : Settled method v setup s) {handler : Handler} :
    handler ∈ setup.handlers ↔ ∃ e ∈ method.code.exceptionTable, ∃ type, method.Catches e type ∧
      handler = ⟨e.startPc.toNat, e.endPc.toNat, e.handlerPc.toNat, type⟩ := by
  rw [mem_of_mapM h.handlers]
  refine exists_congr fun e => and_congr_right fun he => ?_
  -- the positions were checked, since the whole table was accepted
  obtain ⟨resolved, hresolved⟩ := exists_mapM_iff.mp ⟨_, h.handlers⟩ e he
  obtain ⟨hstart, hstop, htarget, hlt, -⟩ := Inference.resolveHandler_eq_ok.mp hresolved
  rw [Inference.resolveHandler_eq_ok]
  exact ⟨fun hresolve => hresolve.2.2.2.2, fun htype => ⟨hstart, hstop, htarget, hlt, htype⟩⟩

/-- The entries of the table of an accepted method have handlers inside the code, and types that can be read. -/
theorem table (h : Settled method v setup s) :
    ∀ e ∈ method.code.exceptionTable, e.handlerPc.toNat < method.code.bytes.length ∧ ∃ type, method.Catches e type := by
  intro e he
  obtain ⟨resolved, hresolve⟩ := exists_mapM_iff.mp ⟨_, h.handlers⟩ e he
  obtain ⟨-, -, hsome, -, type, htype, -⟩ := Inference.resolveHandler_eq_ok.mp hresolve
  obtain ⟨index, hindex⟩ := Option.isSome_iff_exists.mp hsome
  obtain ⟨i, hi, hposition⟩ := h.prepared.tiles.indexOf?_eq_some_iff.mp hindex
  rw [← hposition]
  exact ⟨h.prepared.tiles.position_lt_length hi, type, htype⟩

end Settled

end Bytecode
