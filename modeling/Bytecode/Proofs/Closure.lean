import Bytecode.Proofs.Acceptance
import Bytecode.Proofs.Rounds

/-!
# States are closed under control flow

The states that inference ends with are a post-fixed point: the code runs again from the frame of every state, and
what it brings to a place with a state is already in the state there.  Returns from subroutines are not among these
edges.

* `Frame.JoinsInto`: joining the types of a frame into those of another changes nothing;
* `Verified.IsMergePoint`: the places that control can come to from elsewhere than the instruction in front;
* `Verified.Replays`: running the code again from a state comes to an instruction with a frame;
* `Verified.IsPostFixedPoint`: the entry, every edge that is met on the way and every call lead to a state that
  takes in what comes along it;
* `states_closed_under_edges`: what inference ends with is a post-fixed point.
-/

namespace Bytecode

namespace Frame

/-- Stacks have the same shape, and joining the types of the one frame into those of the other changes nothing. -/
structure JoinsInto (f g : Frame) : Prop where
  shape : f.stack.map width = g.stack.map width
  stack : List.Forall₂ (fun t u => t.join u = u) f.stack g.stack
  locals : List.Forall₂ (fun t u => t.join u = u) f.locals g.locals

theorem Below.joinsInto {f g : Frame} (h : f.Below g) : f.JoinsInto g where
  shape := by
    have hwidths : List.Forall₂ (fun t u => width t = width u) f.stack g.stack := h.stack.imp fun _ _ hrefines => hrefines.2
    rw [← List.forall₂_eq_eq_eq, List.forall₂_map_left_iff, List.forall₂_map_right_iff]
    exact hwidths
  stack := h.stack.imp fun _ _ hrefines => VType.le_iff_join_eq.mp hrefines.1
  locals := h.locals.imp fun _ _ hle => VType.le_iff_join_eq.mp hle

end Frame

/-- What is done at a place goes through with a frame, also if a subroutine is called or left. -/
structure Place.Executes (p : Place) (f : Frame) : Prop where
  result : match p.flow with
    | .jsr entry => entry ∉ f.nesting ∧ f.height + 1 ≤ p.context.maxStack
    | .ret slot => ∃ entry, f.locals[slot.toNat]? = some (.returnAddress entry) ∧ entry ∈ f.nesting
    | _ => (p.result f).isSome
  caught : ∀ type n, p.handles type n → (p.caught f type).isSome

theorem Place.Executes.result_isSome {p : Place} {f : Frame} (h : p.Executes f) (hcall : ∀ entry, p.flow ≠ .jsr entry)
    (hret : ∀ slot, p.flow ≠ .ret slot) : (p.result f).isSome := by
  have hresult := h.result
  split at hresult
  · exact absurd ‹_› (hcall _)
  · exact absurd ‹_› (hret _)
  · exact hresult

namespace Method

/-- What is done at an instruction, and where control can go on from it, by positions. -/
def placeOf (method : Method) (i : Instruction) : Place where
  flow := i.flow
  stop := i.flags.stop
  store := i.flags.store
  context := method.context i.position
  next := i.next
  handles type target := ∃ e ∈ method.code.exceptionTable, e.startPc.toNat ≤ i.position ∧ i.position < e.endPc.toNat ∧
    method.Catches e type ∧ e.handlerPc.toNat = target

/-- Control can come to a position right after an instruction, if that is not a `ret`. -/
inductive Follows (method : Method) (i : Instruction) : Nat → Prop
  | named {target : Nat} (htarget : target ∈ i.targets) : Follows method i target
  | falls (hfalls : (method.placeOf i).fallsThrough = true) : Follows method i i.next
  | caught {e : ExceptionHandler} (he : e ∈ method.code.exceptionTable) (hstart : e.startPc.toNat ≤ i.position)
      (hstop : i.position < e.endPc.toNat) : Follows method i e.handlerPc.toNat

end Method

namespace Verified

/-- A place that control can come to from elsewhere than the instruction in front: it is named by an instruction, stands
behind a call or starts a handler. -/
def IsMergePoint (v : Verified) (method : Method) (position : Nat) : Prop :=
  (∃ index i, v.body.get? index = some i ∧
    (position ∈ i.targets ∨ (∃ entry, i.flow = .jsr entry) ∧ position = i.next)) ∨
  ∃ e ∈ method.code.exceptionTable, e.handlerPc.toNat = position

/-- Running the code again from the frame of a state, past no merge point, comes to an instruction with a frame. -/
inductive Replays (v : Verified) (method : Method) : Nat → Frame → Prop
  | state {index : Nat} {i : Instruction} {st : TypeState} (hi : v.body.get? index = some i)
      (hst : v.states.get? i.position = some st) : Replays v method index st.frame
  | on {index : Nat} {i i' : Instruction} {f g : Frame} (hfront : Replays v method index f)
      (hi : v.body.get? index = some i) (hfalls : (method.placeOf i).fallsThrough = true)
      (hresult : (method.placeOf i).result f = some g) (hi' : v.body.get? (index + 1) = some i')
      (hmerge : ¬ v.IsMergePoint method i'.position) : Replays v method (index + 1) g

theorem Replays.exists_instruction {v : Verified} {method : Method} {index : Nat} {f : Frame}
    (h : v.Replays method index f) : ∃ i, v.body.get? index = some i := by
  cases h with
  | state hi _ => exact ⟨_, hi⟩
  | on _ _ _ _ hi' _ => exact ⟨_, hi'⟩

/-- A place has a state that a frame brings nothing new to. -/
def TakesIn (v : Verified) (position : Nat) (f : Frame) : Prop :=
  ∃ st, v.states.get? position = some st ∧ f.JoinsInto st.frame

/-- The states take in the frame at the entry and all that comes along the edges of control flow, returns apart. -/
structure IsPostFixedPoint (v : Verified) (method : Method) : Prop where
  entered : ∃ entry, Frame.entry method.className method.isStatic method.isConstructor method.descriptor
    method.code.maxLocals.toNat = .ok entry ∧ v.TakesIn 0 entry
  placed : ∀ position st, v.states.get? position = some st →
    ∃ index i, v.body.get? index = some i ∧ i.position = position
  executes : ∀ index i f, v.Replays method index f → v.body.get? index = some i → (method.placeOf i).Executes f
  goes : ∀ index i f q g, v.Replays method index f → v.body.get? index = some i → (method.placeOf i).Goes f q g →
    v.IsMergePoint method q ∧ v.TakesIn q g ∨
      ¬ v.IsMergePoint method q ∧ q = i.next ∧ v.Replays method (index + 1) g
  calls : ∀ index i f entry, v.Replays method index f → v.body.get? index = some i → i.flow = .jsr entry →
    v.TakesIn entry ⟨f.withoutUninitialized.locals, .returnAddress entry :: f.stack, f.nesting ++ [entry]⟩
  visited_iff : ∀ index i, v.body.get? index = some i →
    (v.visited.contains i.position = true ↔ ∃ f, v.Replays method index f)
  visited_zero : ∃ i, v.body.get? 0 = some i ∧ v.visited.contains i.position = true
  visited_follows : ∀ index i q, v.body.get? index = some i → v.visited.contains i.position = true →
    method.Follows i q → ∃ index' i', v.body.get? index' = some i' ∧ i'.position = q ∧ v.visited.contains q = true

end Verified

namespace Settled

variable {method : Method} {v : Verified} {setup : Setup} {s : Session} {index : Nat} {i : Instruction} {f g : Frame}

theorem get?_setup (h : Settled method v setup s) (hi : v.body.get? index = some i) : setup.body.get? index = some i := by
  rw [← h.body_eq]
  exact hi

/-! ## Places -/

theorem placeOf_eq (h : Settled method v setup s) (i : Instruction) : setup.placeOf i = method.placeOf i := by
  have hhandles : (setup.placeOf i).handles = (method.placeOf i).handles := by
    funext type target
    apply propext
    constructor
    · rintro ⟨handler, hmem, hcovers, rfl, rfl⟩
      obtain ⟨e, he, type, htype, rfl⟩ := h.mem_handlers_iff.mp hmem
      simp only [Handler.covers, Bool.and_eq_true, decide_eq_true_eq] at hcovers
      exact ⟨e, he, hcovers.1, hcovers.2, htype, rfl⟩
    · rintro ⟨e, he, hstart, hstop, htype, rfl⟩
      refine ⟨_, h.mem_handlers_iff.mpr ⟨e, he, type, htype, rfl⟩, ?_, rfl, rfl⟩
      simp only [Handler.covers, Bool.and_eq_true, decide_eq_true_eq]
      exact ⟨hstart, hstop⟩
  unfold Setup.placeOf Method.placeOf at hhandles ⊢
  rw [h.context_eq]
  exact congrArg _ hhandles

/-- Merge points are the places that have a state of their own besides the entry. -/
theorem isHead_iff (h : Settled method v setup s) {p : Nat} (hp : p ≤ method.code.bytes.length) (hpos : 0 < p) :
    setup.IsHead p ↔ v.IsMergePoint method p := by
  obtain ⟨entry, -, -, hprepare, -⟩ := h.explores
  obtain ⟨body, handlers, -, -, -, -, hsetup⟩ := Inference.prepare_eq_ok.mp hprepare
  have hpoints : setup.mergePoints = Inference.mergePoints setup.body setup.handlers := by rw [hsetup]
  have hlength : setup.body.codeLength = method.code.bytes.length := h.prepared.tiles.codeLength_eq
  have hnamed : (∃ i ∈ setup.body.toList, p ∈ i.targets ∨ (∃ target, i.flow = .jsr target) ∧ p = i.next) ↔
      ∃ index i, v.body.get? index = some i ∧ (p ∈ i.targets ∨ (∃ target, i.flow = .jsr target) ∧ p = i.next) := by
    constructor
    · rintro ⟨i, hmem, hi⟩
      obtain ⟨index, hindex⟩ := List.mem_iff_getElem?.mp hmem
      rw [Body.getElem?_toList, ← h.body_eq] at hindex
      exact ⟨index, i, hindex, hi⟩
    · rintro ⟨index, i, hindex, hi⟩
      rw [h.body_eq, ← Body.getElem?_toList] at hindex
      exact ⟨i, List.mem_of_getElem? hindex, hi⟩
  have hcaught : (∃ handler ∈ setup.handlers, handler.target = p) ↔
      ∃ e ∈ method.code.exceptionTable, e.handlerPc.toNat = p := by
    constructor
    · rintro ⟨handler, hmem, rfl⟩
      obtain ⟨e, he, type, -, rfl⟩ := h.mem_handlers_iff.mp hmem
      exact ⟨e, he, rfl⟩
    · rintro ⟨e, he, rfl⟩
      obtain ⟨-, type, htype⟩ := h.table e he
      exact ⟨_, h.mem_handlers_iff.mpr ⟨e, he, type, htype, rfl⟩, rfl⟩
  unfold Setup.IsHead Verified.IsMergePoint
  rw [hpoints, Inference.contains_mergePoints, hnamed, hcaught, hlength]
  constructor
  · rintro (⟨-, hmerge⟩ | hzero)
    · exact hmerge
    · omega
  · exact fun hmerge => Or.inl ⟨by omega, hmerge⟩

/-- The next instruction is entered from its state exactly if it is a merge point. -/
theorem isHead_succ_iff (h : Settled method v setup s) {i' : Instruction} (hi : v.body.get? index = some i)
    (hi' : v.body.get? (index + 1) = some i') : setup.IsHead i'.position ↔ v.IsMergePoint method i'.position := by
  have hlt := h.tiles.position_lt_length hi'
  have hpos : 0 < i'.position := Nat.lt_of_le_of_lt (Nat.zero_le _) (h.tiles.position_lt (Nat.lt_succ_self _) hi hi')
  exact h.isHead_iff (Nat.le_of_lt hlt) hpos

/-! ## Running the code again -/

theorem frameBefore?_of_replays (h : Settled method v setup s) (hreplays : v.Replays method index f) :
    v.frameBefore? method index = some f := by
  induction hreplays with
  | state hi hst =>
    rw [h.states_eq] at hst
    exact h.frameBefore?_of_state hi hst
  | @on index i i' f g hfront hi hfalls hresult hi' hmerge ih =>
    -- states stand only at merge points and at the entry
    have hnone : v.stateFrame? (index + 1) = none := by
      rw [← Option.not_isSome_iff_eq_none]
      intro hsome
      obtain ⟨frame, hframe⟩ := Option.isSome_iff_exists.mp hsome
      obtain ⟨st, hst, -⟩ := (h.stateFrame?_eq_some hi').mp hframe
      exact hmerge ((h.isHead_succ_iff hi hi').mp (h.wellFormed.states _ st hst).2)
    rw [← h.placeOf_eq] at hfalls hresult
    have honward := Session.onward_eq_some_iff.mpr ⟨hfalls, hresult⟩
    rw [h.context_eq] at honward
    rw [Verified.frameBefore?, hnone, Option.none_or, hi, Option.bind_some, ih, Option.bind_some]
    exact honward

/-- What an instruction leaves for the next one is delivered to it at a merge point; elsewhere the code runs on with it. -/
theorem falls_of_replays (h : Settled method v setup s) (hreplays : v.Replays method index f)
    (hi : v.body.get? index = some i) (hfalls : (method.placeOf i).fallsThrough = true)
    (hresult : (method.placeOf i).result f = some g) :
    ∃ i', v.body.get? (index + 1) = some i' ∧ (v.IsMergePoint method i'.position ∧ s.Delivered i'.position g ∨
      ¬ v.IsMergePoint method i'.position ∧ v.Replays method (index + 1) g) := by
  have honward : i.onward (setup.context i.position) f = some g := by
    rw [Session.onward_eq_some_iff, h.placeOf_eq]
    exact ⟨hfalls, hresult⟩
  have hsetup := h.get?_setup hi
  -- the analysis looked at the instruction with this frame, and left, met a merge point or went on
  cases h.covers hi (h.frameBefore?_of_replays hreplays) with
  | left hi₁ _ hleft =>
    obtain rfl := Option.some.inj (hsetup.symm.trans hi₁)
    rw [honward] at hleft
    simp at hleft
  | met hi₁ _ hnext hi' hhead hdelivered =>
    obtain rfl := Option.some.inj (hsetup.symm.trans hi₁)
    obtain rfl := Option.some.inj (honward.symm.trans hnext)
    rw [← h.body_eq] at hi'
    exact ⟨_, hi', Or.inl ⟨(h.isHead_succ_iff hi hi').mp hhead, hdelivered⟩⟩
  | on hi₁ _ hnext hi' hhead _ =>
    obtain rfl := Option.some.inj (hsetup.symm.trans hi₁)
    obtain rfl := Option.some.inj (honward.symm.trans hnext)
    rw [← h.body_eq] at hi'
    rw [h.isHead_succ_iff hi hi'] at hhead
    exact ⟨_, hi', Or.inr ⟨hhead, .on hreplays hi hfalls hresult hi' hhead⟩⟩

theorem replays_of_stateFrame? (h : Settled method v setup s) (hframe : v.stateFrame? index = some f) :
    v.Replays method index f := by
  obtain ⟨i, hi, -⟩ := Option.bind_eq_some_iff.mp hframe
  obtain ⟨st, hst, rfl⟩ := (h.stateFrame?_eq_some hi).mp hframe
  rw [← h.states_eq] at hst
  exact .state hi hst

/-- The frame right before an instruction is the one with which running the code again comes to it. -/
theorem replays_iff (h : Settled method v setup s) : v.Replays method index f ↔ v.frameBefore? method index = some f := by
  refine ⟨h.frameBefore?_of_replays, ?_⟩
  induction index generalizing f with
  | zero => exact h.replays_of_stateFrame?
  | succ index ih =>
    intro hframe
    cases hown : v.stateFrame? (index + 1) with
    | some own =>
      rw [Verified.frameBefore?, hown, Option.some_or] at hframe
      exact h.replays_of_stateFrame? (hown.trans hframe)
    | none =>
      rw [Verified.frameBefore?, hown, Option.none_or] at hframe
      obtain ⟨i, hi, hbefore⟩ := Option.bind_eq_some_iff.mp hframe
      obtain ⟨before, hbefore, honward⟩ := Option.bind_eq_some_iff.mp hbefore
      rw [← h.context_eq, Session.onward_eq_some_iff, h.placeOf_eq] at honward
      obtain ⟨i', hi', ⟨-, st, hst, -⟩ | ⟨-, hon⟩⟩ := h.falls_of_replays (ih hbefore) hi honward.1 honward.2
      · -- a merge point that something was delivered to has a state
        rw [(h.stateFrame?_eq_some hi').mpr ⟨st, hst, rfl⟩] at hown
        simp at hown
      · exact hon

/-! ## Edges -/

theorem takesIn (h : Settled method v setup s) {position : Nat} (hdelivered : s.Delivered position f) :
    v.TakesIn position f := by
  obtain ⟨st, hst, hbelow⟩ := hdelivered
  rw [← h.states_eq] at hst
  exact ⟨st, hst, hbelow.joinsInto⟩

theorem executes (h : Settled method v setup s) (hreplays : v.Replays method index f)
    (hi : v.body.get? index = some i) : (method.placeOf i).Executes f := by
  have hhandled := h.handled hi (h.replays_iff.mp hreplays)
  have hflow := hhandled.flow
  rw [← h.placeOf_eq]
  refine ⟨?_, fun _ _ => hhandled.handlers.caught_isSome⟩
  show match i.flow with
    | .jsr entry => entry ∉ f.nesting ∧ f.height + 1 ≤ setup.maxStack
    | .ret slot => ∃ entry, f.locals[slot.toNat]? = some (.returnAddress entry) ∧ entry ∈ f.nesting
    | _ => ((setup.placeOf i).result f).isSome
  unfold Session.FlowHandled at hflow
  cases hcase : i.flow with
  | plain op => exact hhandled.result_isSome (by simp [hcase]) (by simp [hcase])
  | branch kind target => exact hhandled.result_isSome (by simp [hcase]) (by simp [hcase])
  | select default cases => exact hhandled.result_isSome (by simp [hcase]) (by simp [hcase])
  | jsr entry =>
    rw [hcase] at hflow
    obtain ⟨start, hstart, -⟩ := hflow.start
    obtain ⟨-, hstack, -, hnew, hheight⟩ := Session.startFrame_eq_ok hstart
    refine ⟨hnew, ?_⟩
    rw [Frame.height, hstack, Frame.stackHeight_cons] at hheight
    have hwidth : width (VType.returnAddress entry) = 1 := rfl
    rw [Frame.height]
    omega
  | ret slot =>
    rw [hcase] at hflow
    obtain ⟨-, entry, hleft, -⟩ := hflow
    obtain ⟨popped, rest, hpopped, -⟩ := hleft.popped
    exact ⟨entry, hleft.address, List.mem_of_getElem? (Nesting.leaveThrough_eq_ok hpopped).2.2⟩

/-- What comes along an edge is taken in by a state, or the code runs on with it. -/
theorem goes (h : Settled method v setup s) {q : Nat} (hreplays : v.Replays method index f)
    (hi : v.body.get? index = some i) (hgoes : (method.placeOf i).Goes f q g) :
    v.IsMergePoint method q ∧ v.TakesIn q g ∨
      ¬ v.IsMergePoint method q ∧ q = i.next ∧ v.Replays method (index + 1) g := by
  have hhandled := h.handled hi (h.replays_iff.mp hreplays)
  cases hgoes with
  | falls hfalls hresult =>
    obtain ⟨i', hi', hnext⟩ := h.falls_of_replays hreplays hi hfalls hresult
    have hposition : i'.position = (method.placeOf i).next := h.tiles.position_succ hi hi'
    rw [← hposition]
    rcases hnext with ⟨hmerge, hdelivered⟩ | ⟨hmerge, hon⟩
    · exact Or.inl ⟨hmerge, h.takesIn hdelivered⟩
    · exact Or.inr ⟨hmerge, hposition, hon⟩
  | jumps htarget hresult =>
    rw [← h.placeOf_eq] at hresult
    exact Or.inl ⟨Or.inl ⟨index, i, hi, Or.inl htarget⟩, h.takesIn (hhandled.delivered_of_jump htarget hresult)⟩
  | throws hhandles hcaught =>
    obtain ⟨e, he, -, -, -, htarget⟩ := id hhandles
    rw [← h.placeOf_eq] at hhandles hcaught
    exact Or.inl ⟨Or.inr ⟨e, he, htarget⟩, h.takesIn (hhandled.handlers.delivered hhandles hcaught)⟩
  | throwsAfter hstore hresult hhandles hcaught =>
    obtain ⟨e, he, -, -, -, htarget⟩ := id hhandles
    rw [← h.placeOf_eq] at hstore hresult hhandles hcaught
    have hreached := hhandled.handlers_after hstore hresult
    exact Or.inl ⟨Or.inr ⟨e, he, htarget⟩, h.takesIn (hreached.delivered hhandles hcaught)⟩

/-- The frame in which a subroutine starts is taken in at its entry. -/
theorem takesIn_call (h : Settled method v setup s) {entry : Nat} (hreplays : v.Replays method index f)
    (hi : v.body.get? index = some i) (hflow : i.flow = .jsr entry) :
    v.TakesIn entry ⟨f.withoutUninitialized.locals, .returnAddress entry :: f.stack, f.nesting ++ [entry]⟩ := by
  have hentered := (h.handled hi (h.replays_iff.mp hreplays)).flow
  unfold Session.FlowHandled at hentered
  rw [hflow] at hentered
  obtain ⟨start, hstart, hdelivered⟩ := hentered.start
  obtain ⟨hlocals, hstack, hnesting, -⟩ := Session.startFrame_eq_ok hstart
  rw [← hlocals, ← hstack, ← hnesting]
  exact h.takesIn hdelivered

/-! ## Instructions that were looked at -/

theorem visited_iff_replays (h : Settled method v setup s) (hi : v.body.get? index = some i) :
    v.visited.contains i.position = true ↔ ∃ f, v.Replays method index f := by
  rw [h.visited_iff hi, Option.isSome_iff_exists]
  exact exists_congr fun f => h.replays_iff.symm

/-- Instructions with a state were looked at. -/
theorem visited_of_takesIn (h : Settled method v setup s) {position : Nat} (htakes : v.TakesIn position f) :
    ∃ index i, v.body.get? index = some i ∧ i.position = position ∧ v.visited.contains position = true := by
  obtain ⟨st, hst, -⟩ := htakes
  obtain ⟨index, i, hi, rfl⟩ := h.exists_of_state (h.states_eq ▸ hst)
  exact ⟨index, i, hi, rfl, (h.visited_iff_replays hi).mpr ⟨_, .state hi hst⟩⟩

/-- Where control goes on along an edge, an instruction was looked at. -/
theorem visited_of_goes (h : Settled method v setup s) {q : Nat} (hreplays : v.Replays method index f)
    (hi : v.body.get? index = some i) (hgoes : (method.placeOf i).Goes f q g) :
    ∃ index' i', v.body.get? index' = some i' ∧ i'.position = q ∧ v.visited.contains q = true := by
  rcases h.goes hreplays hi hgoes with ⟨-, htakes⟩ | ⟨-, rfl, hon⟩
  · exact h.visited_of_takesIn htakes
  · obtain ⟨i', hi'⟩ := hon.exists_instruction
    have hposition := h.tiles.position_succ hi hi'
    refine ⟨index + 1, i', hi', hposition, ?_⟩
    rw [← hposition]
    exact (h.visited_iff_replays hi').mpr ⟨g, hon⟩

/-- Wherever control can come right after an instruction that was looked at, an instruction was looked at. -/
theorem visited_of_follows (h : Settled method v setup s) {q : Nat} (hi : v.body.get? index = some i)
    (hvisited : v.visited.contains i.position = true) (hfollows : method.Follows i q) :
    ∃ index' i', v.body.get? index' = some i' ∧ i'.position = q ∧ v.visited.contains q = true := by
  obtain ⟨f, hreplays⟩ := (h.visited_iff_replays hi).mp hvisited
  have hexecutes := h.executes hreplays hi
  cases hfollows with
  | named htarget =>
    -- a call brings a frame of its own to its target
    by_cases hcall : ∃ entry, i.flow = .jsr entry
    · obtain ⟨entry, hflow⟩ := hcall
      obtain rfl : q = entry := by simpa [Instruction.targets, hflow] using htarget
      exact h.visited_of_takesIn (h.takesIn_call hreplays hi hflow)
    · have hret : ∀ slot, i.flow ≠ .ret slot := by
        intro slot hslot
        simp [Instruction.targets, hslot] at htarget
      obtain ⟨g, hg⟩ := Option.isSome_iff_exists.mp (hexecutes.result_isSome (not_exists.mp hcall) hret)
      exact h.visited_of_goes hreplays hi (.jumps htarget hg)
  | falls hfalls =>
    have hcall : ∀ entry, i.flow ≠ .jsr entry := by
      intro entry hentry
      simp [Place.fallsThrough, Method.placeOf, hentry] at hfalls
    have hret : ∀ slot, i.flow ≠ .ret slot := by
      intro slot hslot
      simp [Place.fallsThrough, Method.placeOf, hslot] at hfalls
    obtain ⟨g, hg⟩ := Option.isSome_iff_exists.mp (hexecutes.result_isSome hcall hret)
    exact h.visited_of_goes hreplays hi (.falls hfalls hg)
  | @caught e he hstart hstop =>
    obtain ⟨-, type, htype⟩ := h.table e he
    have hhandles : (method.placeOf i).handles type e.handlerPc.toNat := ⟨e, he, hstart, hstop, htype, rfl⟩
    obtain ⟨g, hg⟩ := Option.isSome_iff_exists.mp (hexecutes.caught type _ hhandles)
    exact h.visited_of_goes hreplays hi (.throws hhandles hg)

end Settled

/-- **The states of an accepted method are a post-fixed point of the edges of control flow.** -/
theorem states_closed_under_edges {method : Method} {v : Verified} (hfits : method.code.bytes.length < 2 ^ 64)
    (hverify : method.verify = .ok v) : v.IsPostFixedPoint method := by
  obtain ⟨setup, s, h⟩ := Method.settled hfits hverify
  obtain ⟨entry, hexplores, -, hprepare, -⟩ := h.explores
  obtain ⟨-, -, -, -, hentry⟩ := Inference.prepare_spec hfits hprepare
  have hentered : v.TakesIn 0 entry := h.takesIn hexplores.entered
  refine
    { entered := ⟨entry, hentry, hentered⟩
      placed := fun _ _ hst => h.exists_of_state (h.states_eq ▸ hst)
      executes := fun _ _ _ => h.executes
      goes := fun _ _ _ _ _ => h.goes
      calls := fun _ _ _ _ => h.takesIn_call
      visited_iff := fun _ _ => h.visited_iff_replays
      visited_zero := ?_
      visited_follows := fun _ _ _ => h.visited_of_follows }
  -- position 0 has a state, and it is the position of the first instruction
  obtain ⟨-, -, -, -, hvisited⟩ := h.visited_of_takesIn hentered
  have hnonempty : (v.body.get? 0).isSome := by
    rw [Body.Laid.get?_isSome_iff, h.body_eq]
    exact h.nonempty
  obtain ⟨first, hfirst⟩ := Option.isSome_iff_exists.mp hnonempty
  refine ⟨first, hfirst, ?_⟩
  rw [h.tiles.position_zero hfirst]
  exact hvisited

/-- A loop that calls a subroutine, in a range of an exception handler:

    0 iconst_0;  1 istore_0;  2 jsr 11;  5 iinc 0 1;  8 goto 2;  11 astore_1;  12 ret 1;  14 pop;  15 return
-/
def guardedLoop : Method :=
  (Method.bare ⟨[], none⟩ 1 2
    [0x03, 0x3b, 0xa8, 0x00, 0x09, 0x84, 0x00, 0x01, 0xa7, 0xff, 0xfa, 0x4c, 0xa9, 0x01, 0x57, 0xb1]).guarded
    [⟨0, 11, 14, 0⟩]

/-- There are states at the entry, at the head of the loop, behind the call, in the subroutine and at the handler. -/
theorem guardedLoop_closed : guardedLoop.code.bytes.length < 2 ^ 64 ∧ ∃ v, guardedLoop.verify = .ok v ∧
    v.states.toList.map Prod.fst = [0, 2, 5, 11, 14] ∧ v.IsPostFixedPoint guardedLoop := by
  obtain ⟨v, hverify, htest⟩ := @Method.exists_of_within guardedLoop 20
    (fun v => v.states.toList.map Prod.fst = [0, 2, 5, 11, 14]) (by decide +kernel)
  exact ⟨by decide, v, hverify, of_decide_eq_true htest, states_closed_under_edges (by decide) hverify⟩

end Bytecode
