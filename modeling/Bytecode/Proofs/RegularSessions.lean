import Bytecode.Proofs.Course
import Bytecode.Proofs.RegularFrames
import Bytecode.Proofs.Rounds

/-!
# Frames stay regular

The frames of a session come from other frames of it, so they are regular at every point of an analysis.

* `Session.All`: all frames that a session has have a property, for instance a regular form (`Session.Regular`);
* `Session.During`: the sessions while one instruction is looked at, with the frame in hand;
* `Session.During.sound`: properties of frames that last are kept during a look;
* `Inference.Point`: all points of an analysis;
* `frames_regular`: frames are regular at every point.
-/

namespace Bytecode

namespace Session

variable {setup : Setup} {s t : Session} {frame : Frame} {i : Instruction}

/-- The frames that a session has: in the states, at calls and at `ret` instructions. -/
inductive Holds (s : Session) : Frame → Prop
  | state {p : Nat} {st : TypeState} (h : s.states.get? p = some st) : Holds s st.frame
  | call {p : Nat} {site : CallSite} (h : s.calls.get? p = some site) : Holds s site.frame
  | ret {p : Nat} {f : Frame} (h : s.retFrames.get? p = some f) : Holds s f

/-- All frames that the session has have a property. -/
def All (P : Registry → Frame → Prop) (s : Session) : Prop := ∀ f, s.Holds f → P s.registry f

/-- All frames that the session has are regular. -/
def Regular (setup : Setup) (s : Session) : Prop := s.All fun r f => f.Regular setup r

section Lasting

variable {At : Nat → Prop} {P : Registry → Frame → Prop} (hP : Frame.Lasting setup At P)

include hP

/-- Only states, calls and frames at `ret` instructions matter, and a registry may grow. -/
theorem All.congr (h : s.All P) (hstates : t.states = s.states) (hcalls : t.calls = s.calls)
    (hretFrames : t.retFrames = s.retFrames) (hgrows : s.registry.Grows t.registry) : t.All P := by
  intro f hf
  refine hP.mono (h f ?_) hgrows
  cases hf with
  | state hst => exact .state (hstates ▸ hst)
  | call hsite => exact .call (hcalls ▸ hsite)
  | ret hret => exact .ret (hretFrames ▸ hret)

omit hP in
theorem All.insertState {position : Nat} {st : TypeState} (h : s.All P) (hst : P s.registry st.frame) :
    { s with states := s.states.insert position st }.All P := by
  intro f hf
  cases hf with
  | @state p _ hget =>
    exact PositionMap.forall_insert (P := fun _ st => P s.registry st.frame)
      (fun _ st' hst' => h st'.frame (.state hst')) hst p _ hget
  | call hsite => exact h _ (.call hsite)
  | ret hret => exact h _ (.ret hret)

omit hP in
theorem All.insertCall {position : Nat} {site : CallSite} (h : s.All P) (hsite : P s.registry site.frame) :
    { s with calls := s.calls.insert position site }.All P := by
  intro f hf
  cases hf with
  | state hst => exact h _ (.state hst)
  | @call p _ hget =>
    exact PositionMap.forall_insert (P := fun _ site => P s.registry site.frame)
      (fun _ site' hsite' => h site'.frame (.call hsite')) hsite p _ hget
  | ret hret => exact h _ (.ret hret)

omit hP in
theorem All.insertRet {position : Nat} (h : s.All P) (hframe : P s.registry frame) :
    { s with retFrames := s.retFrames.insert position frame }.All P := by
  intro f hf
  cases hf with
  | state hst => exact h _ (.state hst)
  | call hsite => exact h _ (.call hsite)
  | @ret p _ hget =>
    exact PositionMap.forall_insert (P := fun _ f => P s.registry f)
      (fun _ f' hf' => h f' (.ret hf')) hframe p _ hget

theorem All.note (h : s.All P) (e : Event) : (s.note setup e).All P := by
  rw [note_eq]
  exact h.congr hP rfl rfl rfl (.refl _)

theorem All.enqueue (h : s.All P) (position : Nat) : (s.enqueue position).All P := by
  rw [enqueue_eq]
  exact h.congr hP rfl rfl rfl (.refl _)

/-- Merging a frame with the property into a place. -/
theorem All.mergeInto {position : Nat} (h : s.All P) (hframe : P s.registry frame)
    (hmerge : s.mergeInto setup position frame = .ok t) : t.All P := by
  obtain ⟨u, rfl, -, -, rfl⟩ | ⟨st, merged, u, rfl, hst, hmerged, ⟨-, rfl⟩ | rfl⟩ := mergeInto_eq_ok hmerge
  · refine ((h.note hP _).insertState ?_).enqueue hP position
    rw [registry_note]
    exact hframe
  · exact h
  · refine ((h.note hP _).insertState ?_).enqueue hP position
    rw [registry_note]
    exact hP.merge (h st.frame (.state hst)) hframe hmerged

omit hP in
/-- Several merges of one frame, or of frames made from it. -/
theorem All.foldlM {α : Type} {f : Session → α → Attempt Session} {as : List α}
    (hstep : ∀ s a t, a ∈ as → s.All P → P s.registry frame → f s a = .ok t → t.All P ∧ t.registry = s.registry)
    (h : s.All P) (hframe : P s.registry frame) (hfold : as.foldlM f s = .ok t) :
    t.All P ∧ t.registry = s.registry := by
  refine foldlM_keeps (P := fun u : Session => u.All P ∧ u.registry = s.registry) ?_ ⟨h, rfl⟩ hfold
  rintro u a t hmem ⟨hu, hsame⟩ hmerge
  obtain ⟨hall, hsame'⟩ := hstep u a t hmem hu (hsame ▸ hframe) hmerge
  exact ⟨hall, hsame'.trans hsame⟩

theorem All.foldlM_mergeHandler {handlers : List Handler} (hcover : ∀ h ∈ handlers, h ∈ setup.handlers)
    (h : s.All P) (hframe : P s.registry frame) (hfold : handlers.foldlM (mergeHandler setup frame) s = .ok t) :
    t.All P ∧ t.registry = s.registry := by
  refine All.foldlM ?_ h hframe hfold
  intro s handler t hmem h hframe hmerge
  obtain ⟨caught, hcaught, hmerge⟩ := mergeHandler_eq_ok hmerge
  exact ⟨h.mergeInto hP (hP.caught hframe (hcover handler hmem) hcaught) hmerge, mergeInto_registry hmerge⟩

theorem All.mergeIntoAll {positions : List Nat} (h : s.All P) (hframe : P s.registry frame)
    (hmerge : s.mergeIntoAll setup positions frame = .ok t) : t.All P := by
  unfold Session.mergeIntoAll at hmerge
  refine (All.foldlM ?_ h hframe hmerge).1
  intro s position t _ h hframe hmerge
  exact ⟨h.mergeInto hP hframe hmerge, mergeInto_registry hmerge⟩

theorem All.recordCall {position entry : Nat} {isNew isChanged : Bool} (h : s.All P) (hframe : P s.registry frame)
    (hrecord : s.recordCall position entry frame = some (t, isNew, isChanged)) :
    t.All P ∧ t.registry = s.registry := by
  obtain ⟨-, -, -, rfl⟩ | ⟨call, hcall, ⟨-, rfl⟩ | ⟨-, rfl⟩⟩ := recordCall_eq_some hrecord
  · exact ⟨h.insertCall hframe, rfl⟩
  · exact ⟨h, rfl⟩
  · exact ⟨h.insertCall (hP.absorb (h call.frame (.call hcall)) hframe), rfl⟩

/-- Returning to one call. -/
theorem All.returnTo {slot : UInt16} {entry jsr : Nat} {site : CallSite} {accessed : Nat → Bool}
    (h : s.All P) (hframe : P s.registry frame) (hsite : P s.registry site.frame)
    (hreturn : returnTo setup i slot entry frame accessed s (jsr, site) = .ok t) :
    t.All P ∧ s.registry.Grows t.registry := by
  obtain ⟨-, caller, registry, -, -, hcharge, hmerge⟩ := returnTo_eq_ok hreturn
  have hgrows : s.registry.Grows registry := hcharge ▸ Registry.grows_charge _ _ _
  have hcharged : { s with jsrRets := s.jsrRets.insert jsr i.position, registry }.All P := h.congr hP rfl rfl rfl hgrows
  rw [mergeInto_registry hmerge, registry_note]
  refine ⟨(hcharged.note hP _).mergeInto hP ?_ hmerge, hgrows⟩
  rw [registry_note]
  exact hP.mono (hP.continuation slot.toNat accessed hsite hframe) hgrows

/-- Returning to several calls, one after the other. -/
theorem All.foldlM_returnTo {slot : UInt16} {entry : Nat} {accessed : Nat → Bool} {calls : List (Nat × CallSite)}
    (h : s.All P) (hframe : P s.registry frame) (hsites : ∀ call ∈ calls, P s.registry call.2.frame)
    (hfold : calls.foldlM (Session.returnTo setup i slot entry frame accessed) s = .ok t) :
    t.All P ∧ s.registry.Grows t.registry := by
  refine foldlM_keeps (P := fun u : Session => u.All P ∧ s.registry.Grows u.registry) ?_ ⟨h, .refl _⟩ hfold
  rintro u ⟨jsr, site⟩ u' hmem ⟨hu, hgrows⟩ hreturn
  obtain ⟨hu', hgrows'⟩ := hu.returnTo hP (hP.mono hframe hgrows) (hP.mono (hsites _ hmem) hgrows) hreturn
  exact ⟨hu', hgrows.trans hgrows'⟩

end Lasting

/-! ## Inside of a look -/

/-- The subroutine that is called is registered. -/
def registered (s : Session) (i : Instruction) (entry : Nat) : Session :=
  { s with registry := (s.registry.register entry).modify entry fun r => r.addRetTarget i.next }

/-- A `ret` is known to leave a subroutine. -/
def leaving (s : Session) (i : Instruction) (entry popped : Nat) : Session :=
  { s with
    framesPopped := s.framesPopped.insert i.position popped
    registry := s.registry.modify entry fun r => r.addRetInstruction i.position }

/-- The sessions that are passed while an instruction is looked at with a frame, each with the frame that is in hand
then.  Where several places are merged into, there is a point after each of them. -/
inductive During (setup : Setup) (s : Session) (i : Instruction) (frame : Frame) : Session → Frame → Prop
  | handlers {t : Session} {front rest : List Handler}
      (hcover : (setup.handlers.filter fun h => h.covers i.position) = front ++ rest)
      (h : front.foldlM (mergeHandler setup frame) (s.looked setup i frame) = .ok t) : During setup s i frame t frame
  | executed {u : Session} {op : Op} {g : Frame} (hu : (s.looked setup i frame).mergeHandlers setup i.position frame = .ok u)
      (hflow : i.flow = .plain op) (hg : frame.after op (setup.context i.position) = .ok g) :
      During setup s i frame (u.executed setup i op frame) g
  | stored {u t : Session} {op : Op} {g : Frame} {front rest : List Handler}
      (hu : (s.looked setup i frame).mergeHandlers setup i.position frame = .ok u) (hflow : i.flow = .plain op)
      (hg : frame.after op (setup.context i.position) = .ok g)
      (hcover : (setup.handlers.filter fun h => h.covers i.position) = front ++ rest)
      (h : front.foldlM (mergeHandler setup g) (u.executed setup i op frame) = .ok t) : During setup s i frame t g
  | branched {u t : Session} {kind : BranchKind} {target : Nat} {g : Frame}
      (hu : (s.looked setup i frame).mergeHandlers setup i.position frame = .ok u) (hflow : i.flow = .branch kind target)
      (hg : frame.executeBranch kind = .ok g) (h : u.mergeInto setup target g = .ok t) : During setup s i frame t g
  | selected {u t : Session} {default : Nat} {cases : Cases} {g : Frame} {front rest : List Nat}
      (hu : (s.looked setup i frame).mergeHandlers setup i.position frame = .ok u) (hflow : i.flow = .select default cases)
      (hg : frame.executeSelect = .ok g) (htargets : default :: cases.targets = front ++ rest)
      (h : u.mergeIntoAll setup front g = .ok t) : During setup s i frame t g
  | recorded {u t : Session} {entry : Nat} {isNew isChanged : Bool}
      (hu : (s.looked setup i frame).mergeHandlers setup i.position frame = .ok u) (hflow : i.flow = .jsr entry)
      (h : u.recordCall i.position entry frame = some (t, isNew, isChanged)) : During setup s i frame t frame
  | registered {u t : Session} {entry : Nat} {isNew isChanged : Bool}
      (hu : (s.looked setup i frame).mergeHandlers setup i.position frame = .ok u) (hflow : i.flow = .jsr entry)
      (h : u.recordCall i.position entry frame = some (t, isNew, isChanged)) :
      During setup s i frame (t.registered i entry) frame
  | entered {u t w : Session} {entry : Nat} {isNew isChanged : Bool} {start : Frame} {registry : Registry}
      (hu : (s.looked setup i frame).mergeHandlers setup i.position frame = .ok u) (hflow : i.flow = .jsr entry)
      (hrecord : u.recordCall i.position entry frame = some (t, isNew, isChanged))
      (hstart : subroutineEntry setup entry frame (t.registered i entry).registry = .ok (start, registry))
      (h : { t.registered i entry with registry }.mergeInto setup entry start = .ok w) : During setup s i frame w start
  | called {u t : Session} {entry : Nat} (hu : (s.looked setup i frame).mergeHandlers setup i.position frame = .ok u)
      (hflow : i.flow = .jsr entry) (h : u.interpretJsr setup i entry frame = .ok t) : During setup s i frame t frame
  | kept {u : Session} {slot : UInt16} (hu : (s.looked setup i frame).mergeHandlers setup i.position frame = .ok u)
      (hflow : i.flow = .ret slot) :
      During setup s i frame { u with retFrames := u.retFrames.insert i.position frame } frame
  | returned {u t : Session} {slot : UInt16} {entry popped : Nat} {outer : Nesting} {sub : Subroutine}
      {front rest : List (Nat × CallSite)} (hu : (s.looked setup i frame).mergeHandlers setup i.position frame = .ok u)
      (hflow : i.flow = .ret slot) (haddress : frame.locals[slot.toNat]? = some (.returnAddress entry))
      (hleave : frame.nesting.leaveThrough entry = .ok (popped, outer)) (hsub : u.registry.get? entry = some sub)
      (hcalls : (u.calls.toList.filter fun call => call.2.entry = entry) = front ++ rest)
      (h : front.foldlM
        (returnTo setup i slot entry frame ((PositionSet.empty frame.locals.length).insertAll sub.accessed).contains)
        ({ u with retFrames := u.retFrames.insert i.position frame }.leaving i entry popped) = .ok t) :
      During setup s i frame t frame

/-- A look goes from point to point up to its end. -/
theorem during_of_interpretOne {next : Option Frame} (h : s.interpretOne setup i frame = .ok (t, next)) :
    ∃ g, During setup s i frame t g ∧ ∀ f, next = some f → f = g := by
  obtain ⟨u, hu, hworks⟩ := interpretOne_eq_ok h
  cases hworks with
  | plain hflow hplain =>
    obtain ⟨g, hg, rfl, ⟨-, hmerge⟩ | ⟨-, rfl⟩⟩ := interpretPlain_eq_ok hplain
    · exact ⟨g, .stored hu hflow hg (List.append_nil _).symm hmerge, by simp_all⟩
    · exact ⟨g, .executed hu hflow hg, by simp_all⟩
  | @branch _ _ g _ hflow hg hmerge => exact ⟨g, .branched hu hflow hg hmerge, by simp_all⟩
  | @select _ _ g _ hflow hg hmerge => exact ⟨g, .selected hu hflow hg (List.append_nil _).symm hmerge, by simp⟩
  | jsr hflow hjsr => exact ⟨frame, .called hu hflow hjsr, by simp⟩
  | ret hflow hret =>
    obtain ⟨entry, popped, outer, sub, registry, haddress, hleave, -, hsub, rfl, hreturn⟩ := interpretRet_eq_ok hret
    exact ⟨frame, .returned hu hflow haddress hleave hsub (List.append_nil _).symm hreturn, by simp⟩

/-! ## One look -/

section Lasting

variable {At : Nat → Prop} {P : Registry → Frame → Prop} (hP : Frame.Lasting setup At P)

/-- What is true before an instruction is looked at, and is kept at every point of the look. -/
structure Sound (P : Registry → Frame → Prop) (s : Session) (frame : Frame) : Prop where
  session : s.All P
  frame : P s.registry frame

include hP

theorem Sound.congr (h : s.Sound P frame) (hstates : t.states = s.states) (hcalls : t.calls = s.calls)
    (hretFrames : t.retFrames = s.retFrames) (hgrows : s.registry.Grows t.registry) : t.Sound P frame :=
  ⟨h.session.congr hP hstates hcalls hretFrames hgrows, hP.mono h.frame hgrows⟩

theorem Sound.looked (h : s.Sound P frame) (i : Instruction) : (s.looked setup i frame).Sound P frame := by
  rw [looked_eq]
  exact h.congr hP rfl rfl rfl (.refl _)

theorem Sound.handlers {handlers : List Handler} (h : s.Sound P frame)
    (hcover : ∀ handler ∈ handlers, handler ∈ setup.handlers)
    (hfold : handlers.foldlM (mergeHandler setup frame) s = .ok t) : t.Sound P frame := by
  obtain ⟨hall, hsame⟩ := h.session.foldlM_mergeHandler hP hcover h.frame hfold
  exact ⟨hall, hsame ▸ h.frame⟩

theorem Sound.executed {op : Op} {g : Frame} (h : s.Sound P frame) (hat : At i.position)
    (hg : frame.after op (setup.context i.position) = .ok g) : (s.executed setup i op frame).Sound P g := by
  rw [executed_eq hg]
  have hgrows := s.registry.grows_charge frame.nesting op.slots
  exact ⟨h.session.congr hP rfl rfl rfl hgrows, hP.after (hP.mono h.frame hgrows) hat hg⟩

theorem Sound.merged {g : Frame} {target : Nat} (h : s.Sound P g) (hmerge : s.mergeInto setup target g = .ok t) :
    t.Sound P g :=
  ⟨h.session.mergeInto hP h.frame hmerge, mergeInto_registry hmerge ▸ h.frame⟩

theorem Sound.recorded {entry : Nat} {isNew isChanged : Bool} (h : s.Sound P frame)
    (hrecord : s.recordCall i.position entry frame = some (t, isNew, isChanged)) : t.Sound P frame := by
  obtain ⟨hall, hsame⟩ := h.session.recordCall hP h.frame hrecord
  exact ⟨hall, hsame ▸ h.frame⟩

theorem Sound.registered (h : s.Sound P frame) (i : Instruction) (entry : Nat) :
    (s.registered i entry).Sound P frame :=
  h.congr hP rfl rfl rfl (register_spec s.registry entry i.next).1

/-- A subroutine is entered after it was registered. -/
theorem Sound.entered {entry : Nat} {start : Frame} {registry : Registry} (h : s.Sound P frame)
    (hstart : subroutineEntry setup entry frame (s.registered i entry).registry = .ok (start, registry))
    (hmerge : { s.registered i entry with registry }.mergeInto setup entry start = .ok t) : t.Sound P start := by
  obtain ⟨hframe, hgrows⟩ := subroutineEntry_spec hstart
  have hentering : { s.registered i entry with registry }.Sound P frame :=
    (h.registered hP i entry).congr hP rfl rfl rfl hgrows
  have hentry : (registry.get? entry).isSome := by
    obtain ⟨-, sub, hsub, -⟩ := register_spec s.registry entry i.next
    obtain ⟨sub', hsub', -⟩ := hgrows entry sub hsub
    exact Option.isSome_of_eq_some hsub'
  have hbegun : { s.registered i entry with registry }.Sound P start :=
    ⟨hentering.session, hP.startFrame hentering.frame hentry hframe⟩
  exact hbegun.merged hP hmerge

theorem Sound.called {entry : Nat} (h : s.Sound P frame) (hjsr : s.interpretJsr setup i entry frame = .ok t) :
    t.Sound P frame := by
  obtain ⟨u, isNew, isChanged, start, registry, w, hrecord, hstart, hmerge, hcases⟩ := interpretJsr_eq_ok hjsr
  have hu := h.recorded hP hrecord
  have hw := hu.entered hP hstart hmerge
  have hgrows : u.registry.Grows w.registry := by
    rw [mergeInto_registry hmerge]
    exact (register_spec u.registry entry i.next).1.trans (subroutineEntry_spec hstart).2
  have hback : w.Sound P frame := ⟨hw.session, hP.mono hu.frame hgrows⟩
  obtain ⟨noted, rets, rfl, -, rfl⟩ | ⟨-, rfl⟩ := hcases
  · rw [enqueueAll_eq, note_eq]
    exact hback.congr hP rfl rfl rfl (.refl _)
  · exact hback

/-- What lasts is true at every point of a look, if it is true before it. -/
theorem During.sound {g : Frame} (h : s.Sound P frame) (hat : At i.position) (hduring : During setup s i frame t g) :
    t.Sound P g := by
  have hcover : ∀ {front rest : List Handler}, (setup.handlers.filter fun h => h.covers i.position) = front ++ rest →
      ∀ handler ∈ front, handler ∈ setup.handlers := by
    intro front rest hsplit handler hmem
    have hfilter : handler ∈ setup.handlers.filter fun h => h.covers i.position :=
      hsplit ▸ List.mem_append_left rest hmem
    exact (List.mem_filter.mp hfilter).1
  -- all handlers that see the locals before the instruction have been merged into
  have hbefore : ∀ {u : Session}, (s.looked setup i frame).mergeHandlers setup i.position frame = .ok u →
      u.Sound P frame := by
    intro u hu
    exact (h.looked hP i).handlers hP (hcover (List.append_nil _).symm) hu
  cases hduring with
  | handlers hsplit hfold => exact (h.looked hP i).handlers hP (hcover hsplit) hfold
  | executed hu _ hg => exact (hbefore hu).executed hP hat hg
  | stored hu _ hg hsplit hfold => exact ((hbefore hu).executed hP hat hg).handlers hP (hcover hsplit) hfold
  | branched hu _ hg hmerge =>
    have hbranch : Sound P _ g := ⟨(hbefore hu).session, hP.pops (hbefore hu).frame (Frame.pops_executeBranch hg)⟩
    exact hbranch.merged hP hmerge
  | @selected u _ _ _ _ _ _ hu _ hg _ hmerge =>
    have hselect : u.Sound P g := ⟨(hbefore hu).session, hP.pops (hbefore hu).frame (Frame.pops_executeSelect hg)⟩
    refine ⟨hselect.session.mergeIntoAll hP hselect.frame hmerge, ?_⟩
    rw [mergeIntoAll_eq hmerge]
    exact hselect.frame
  | recorded hu _ hrecord => exact (hbefore hu).recorded hP hrecord
  | registered hu _ hrecord => exact ((hbefore hu).recorded hP hrecord).registered hP i _
  | entered hu _ hrecord hstart hmerge => exact ((hbefore hu).recorded hP hrecord).entered hP hstart hmerge
  | called hu _ hjsr => exact (hbefore hu).called hP hjsr
  | kept hu _ => exact ⟨(hbefore hu).session.insertRet (hbefore hu).frame, (hbefore hu).frame⟩
  | @returned u _ slot entry popped _ sub front rest hu _ _ _ _ hcalls hfold =>
    have hgrows : u.registry.Grows (u.registry.modify entry fun r => r.addRetInstruction i.position) :=
      Registry.grows_modify _ fun sub => sub.grows_addRetInstruction i.position
    have hkept : { u with retFrames := u.retFrames.insert i.position frame }.Sound P frame :=
      ⟨(hbefore hu).session.insertRet (hbefore hu).frame, (hbefore hu).frame⟩
    have hleaving : ({ u with retFrames := u.retFrames.insert i.position frame }.leaving i entry popped).Sound P frame :=
      hkept.congr hP rfl rfl rfl hgrows
    have hsites : ∀ call ∈ front,
        P ({ u with retFrames := u.retFrames.insert i.position frame }.leaving i entry popped).registry call.2.frame := by
      intro call hmem
      have hfilter : call ∈ u.calls.toList.filter fun call => call.2.entry = entry := hcalls ▸ List.mem_append_left rest hmem
      exact hleaving.session _ (.call (PositionMap.mem_toList.mp (List.mem_filter.mp hfilter).1))
    obtain ⟨hall, hgrows'⟩ := hleaving.session.foldlM_returnTo hP hleaving.frame hsites hfold
    exact ⟨hall, hP.mono hleaving.frame hgrows'⟩

/-- A look keeps what lasts, whatever comes after it. -/
theorem Sound.interpretOne {next : Option Frame} (h : s.Sound P frame) (hat : At i.position)
    (hone : s.interpretOne setup i frame = .ok (t, next)) : t.All P ∧ ∀ g, next = some g → P t.registry g := by
  obtain ⟨g, hduring, hnext⟩ := during_of_interpretOne hone
  have hsound := hduring.sound hP h hat
  refine ⟨hsound.session, ?_⟩
  intro f hf
  rw [hnext f hf]
  exact hsound.frame

end Lasting

/-- Before anything is known there are no frames. -/
theorem all_start (P : Registry → Frame → Prop) (codeLength maxLocals : Nat) : (start codeLength maxLocals).All P := by
  intro f hf
  cases hf with
  | state hst => simp [start] at hst
  | call hsite => simp [start] at hsite
  | ret hret => simp [start] at hret

end Session

/-! ## The whole analysis -/

namespace Inference

variable {setup : Setup} {entry : Frame} {look : Option (Nat × Frame)} {s t : Session}

/-- The points of an analysis: the session there, and the frame in hand if an instruction is about to be looked at or is
being looked at. -/
inductive Point (setup : Setup) (entry : Frame) : Session → Option Frame → Prop
  | start : Point setup entry (.start setup.body.codeLength setup.method.code.maxLocals.toNat) (some entry)
  | between {s : Session} (h : Passes setup entry none s) : Point setup entry s none
  | before {s : Session} {index : Nat} {frame : Frame} (h : Passes setup entry (some (index, frame)) s) :
      Point setup entry s (some frame)
  | inside {s t : Session} {index : Nat} {i : Instruction} {frame g : Frame}
      (h : Passes setup entry (some (index, frame)) s) (hi : setup.body.get? index = some i)
      (hduring : Session.During setup s i frame t g) : Point setup entry t (some g)

/-- Every session that is passed is regular, and so is the frame that it is about to look with. -/
theorem Passes.regular (hcaught : ∀ handler ∈ setup.handlers, handler.catchType.isReference = true)
    (hentry : ∀ r, entry.Regular setup r) (h : Passes setup entry look s) :
    s.Regular setup ∧ ∀ index frame, look = some (index, frame) → frame.Regular setup s.registry := by
  have hP := Frame.lasting_regular hcaught
  -- one look, whatever comes after it
  have hlook : ∀ {s t : Session} {index : Nat} {i : Instruction} {frame : Frame} {next : Option Frame},
      (s.Regular setup ∧ ∀ index' frame', some (index, frame) = some (index', frame') → frame'.Regular setup s.registry) →
      s.interpretOne setup i frame = .ok (t, next) →
      t.Regular setup ∧ ∀ g, next = some g → g.Regular setup t.registry := by
    intro s t index i frame next hs hone
    exact Session.Sound.interpretOne hP ⟨hs.1, hs.2 index frame rfl⟩ trivial hone
  induction h with
  | enter h => exact ⟨(Session.all_start _ _ _).mergeInto hP (hentry _) h, by simp⟩
  | @state s position index rest st _ hwork hst hindex ih =>
    have hframe := ih.1 st.frame (.state hst)
    have hpopped : { s with worklist := rest }.Regular setup := ih.1.congr hP rfl rfl rfl (.refl _)
    refine ⟨hpopped.insertState hframe, ?_⟩
    intro index' frame' heq
    obtain ⟨-, rfl⟩ := Prod.mk.inj (Option.some.inj heq)
    exact hframe
  | ret _ _ _ hframe _ ih =>
    refine ⟨ih.1.congr hP rfl rfl rfl (.refl _), ?_⟩
    intro index' frame' heq
    obtain ⟨-, rfl⟩ := Prod.mk.inj (Option.some.inj heq)
    exact ih.1 _ (.ret hframe)
  | nothing _ _ _ _ ih => exact ⟨ih.1.congr hP rfl rfl rfl (.refl _), by simp⟩
  | left _ _ hone ih => exact ⟨(hlook ih hone).1, by simp⟩
  | met _ _ hone _ _ hmerge ih =>
    obtain ⟨hregular, hnext⟩ := hlook ih hone
    exact ⟨hregular.mergeInto hP (hnext _ rfl) hmerge, by simp⟩
  | on _ _ hone _ _ ih =>
    obtain ⟨hregular, hnext⟩ := hlook ih hone
    refine ⟨hregular, ?_⟩
    intro index' frame' heq
    obtain ⟨-, rfl⟩ := Prod.mk.inj (Option.some.inj heq)
    exact hnext _ rfl

/-- What is read before the first round is regular. -/
theorem regular_of_prepare {recording : Bool} {method : Method} (h : prepare recording method = .ok (setup, entry)) :
    (∀ handler ∈ setup.handlers, handler.catchType.isReference = true) ∧ ∀ r, entry.Regular setup r := by
  obtain ⟨body, handlers, -, -, hhandlers, hentry, rfl⟩ := prepare_eq_ok.mp h
  refine ⟨?_, Frame.regular_entry hentry⟩
  intro handler hmem
  obtain ⟨e, -, hresolve⟩ := (mem_of_mapM hhandlers).mp hmem
  obtain ⟨-, -, -, -, type, hcatches, rfl⟩ := resolveHandler_eq_ok.mp hresolve
  exact hcatches.isReference

theorem Point.sound (hcaught : ∀ handler ∈ setup.handlers, handler.catchType.isReference = true)
    (hentry : ∀ r, entry.Regular setup r) {hand : Option Frame} (h : Point setup entry s hand) :
    s.Regular setup ∧ ∀ f, hand = some f → f.Regular setup s.registry := by
  cases h with
  | start =>
    exact ⟨Session.all_start _ _ _, fun f hf => Option.some.inj hf ▸ hentry _⟩
  | between h => exact ⟨(h.regular hcaught hentry).1, by simp⟩
  | @before _ index frame h =>
    obtain ⟨hregular, hframe⟩ := h.regular hcaught hentry
    exact ⟨hregular, fun f hf => Option.some.inj hf ▸ hframe index frame rfl⟩
  | @inside u _ index i frame g h _ hduring =>
    obtain ⟨hregular, hframe⟩ := h.regular hcaught hentry
    have hsound := hduring.sound (Frame.lasting_regular hcaught) ⟨hregular, hframe index frame rfl⟩ trivial
    exact ⟨hsound.session, fun f hf => Option.some.inj hf ▸ hsound.frame⟩

/-- However many rounds there are, they end at a point of the analysis. -/
theorem passes_rounds {code : List UInt8} {count : Nat} (hp : setup.Prepared code) (hpasses : Passes setup entry none s)
    (h : s.rounds setup count = .ok t) : Passes setup entry none t := by
  induction count generalizing s with
  | zero =>
    obtain rfl := Except.ok.inj h
    exact hpasses
  | succ count ih =>
    unfold Session.rounds at h
    split at h
    · obtain rfl := Except.ok.inj h
      exact hpasses
    · rename_i position rest hwork
      split at h
      · simp at h
      · rename_i u hround
        exact ih (passes_round hp hpasses hwork hround) h

end Inference

/-- **Frames are regular at every point of the analysis of a method**, whether it ends well or not: those in the states,
those at calls and at `ret` instructions, and the one in hand.  Rounds end at such points.  The constants of a class give
values, as is asked of them. -/
theorem frames_regular {recording : Bool} {method : Method} {setup : Setup} {entry : Frame}
    (hprepare : Inference.prepare recording method = .ok (setup, entry)) :
    (∀ s hand f, Inference.Point setup entry s hand → s.Holds f ∨ hand = some f →
      f.Regular setup s.registry ∧ f.Stacked) ∧
    (method.code.bytes.length < 2 ^ 64 → ∀ first count s,
      (Session.start setup.body.codeLength setup.method.code.maxLocals.toNat).mergeInto setup 0 entry = .ok first →
      first.rounds setup count = .ok s → Inference.Point setup entry s none) ∧
    ∀ pool : ConstantPool, method.constants = pool.resolver → setup.method.constants.GivesValues := by
  obtain ⟨hcaught, hentry⟩ := Inference.regular_of_prepare hprepare
  refine ⟨?_, ?_, ?_⟩
  · intro s hand f hpoint hf
    obtain ⟨hregular, hhand⟩ := hpoint.sound hcaught hentry
    have hframe : f.Regular setup s.registry := hf.elim (hregular f) (hhand f)
    exact ⟨hframe, hframe.stacked⟩
  · intro hfits first count s hfirst hrounds
    obtain ⟨-, hp, -⟩ := Inference.prepare_spec hfits hprepare
    exact .between (Inference.passes_rounds hp (.enter hfirst) hrounds)
  · intro pool hpool
    obtain ⟨_, _, -, -, -, -, rfl⟩ := Inference.prepare_eq_ok.mp hprepare
    exact hpool ▸ pool.givesValues_resolver

/-- A method with a `long` parameter that calls a subroutine:

    0 jsr 4;  3 return;  4 astore_2;  5 ret 2
-/
def longParameter : Method :=
  Method.bare ⟨[.base .long], none⟩ 1 3 [0xa8, 0x00, 0x04, 0xb1, 0x4d, 0xa9, 0x02]

/-- The frame at the `ret` has the whole parameter and the address of a registered subroutine. -/
theorem longParameter_regular :
    ∃ setup entry s f, Inference.prepare false longParameter = .ok (setup, entry) ∧
      Inference.Point setup entry s none ∧ s.Holds f ∧ f = ⟨[.long, .top, .returnAddress 4], [], [4]⟩ ∧
      setup.method.constants.GivesValues ∧ f.Regular setup s.registry ∧ f.Stacked := by
  have htest : (Inference.prepare false longParameter).toOption.any (fun prepared =>
      ((Session.start prepared.1.body.codeLength prepared.1.method.code.maxLocals.toNat).mergeInto
        prepared.1 0 prepared.2).toOption.any fun first => (first.rounds prepared.1 9).toOption.any fun s =>
          s.retFrames.get? 5 = some ⟨[.long, .top, .returnAddress 4], [], [4]⟩) = true := by
    decide +kernel
  simp only [Option.any_eq_true, decide_eq_true_eq, toOption_eq_some] at htest
  obtain ⟨⟨setup, entry⟩, hprepare, first, hfirst, s, hrounds, hret⟩ := htest
  obtain ⟨hregular, hpoints, hconstants⟩ := frames_regular hprepare
  have hpoint := hpoints (by decide) first 9 s hfirst hrounds
  have hholds := Session.Holds.ret hret
  exact ⟨setup, entry, s, _, hprepare, hpoint, hholds, rfl, hconstants .empty rfl,
    hregular s none _ hpoint (Or.inl hholds)⟩

end Bytecode
