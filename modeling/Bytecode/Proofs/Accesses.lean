import Bytecode.Proofs.Exploration

/-!
# Accesses of locals

A subroutine that returns leaves the locals alone that it does not access, so what is noted as accessed decides about the
types behind a call.  An access is charged to the subroutines that are active, by the nesting of the frame.

* `Registry.Adds`: the accesses in a registry are those in another one, and some more;
* `Session.Tracks`: the subroutines that are active in any frame of a session are registered, so that a charge reaches
  them;
* `Session.Charges`: what a look at an instruction charges, and to whom;
* `Session.interpretOne_adds`: a look adds to the accesses exactly what it charges.
-/

namespace Bytecode

variable {entry position slot : Nat}

namespace Subroutine

theorem maxLocals_foldl_access (sub : Subroutine) (slots : List Nat) :
    (slots.foldl access sub).maxLocals = sub.maxLocals := by
  induction slots generalizing sub with
  | nil => rfl
  | cons slot slots ih =>
    rw [List.foldl_cons, ih]
    unfold access
    split <;> rfl

theorem mem_foldl_access {sub : Subroutine} {slots : List Nat} {k : Nat} :
    k ∈ (slots.foldl access sub).accessed ↔ k ∈ sub.accessed ∨ k < sub.maxLocals ∧ k ∈ slots := by
  induction slots generalizing sub with
  | nil => simp
  | cons slot slots ih =>
    rw [List.foldl_cons, ih]
    unfold access
    split
    · rename_i hslot
      rw [mem_addAscending, List.mem_cons]
      constructor
      · rintro ((rfl | hk) | ⟨hlt, hk⟩)
        · exact Or.inr ⟨hslot, Or.inl rfl⟩
        · exact Or.inl hk
        · exact Or.inr ⟨hlt, Or.inr hk⟩
      · rintro (hk | ⟨hlt, rfl | hk⟩)
        · exact Or.inl (Or.inr hk)
        · exact Or.inl (Or.inl rfl)
        · exact Or.inr ⟨hlt, hk⟩
    · rename_i hslot
      rw [List.mem_cons]
      -- a slot that the method does not have is left out
      have hother : k < sub.maxLocals → k ≠ slot := by omega
      tauto

end Subroutine

namespace Registry

variable {m : Nat} {r t u : Registry} {P Q : Nat → Nat → Prop}

/-- Every subroutine counts as many locals as the method has. -/
structure Sized (m : Nat) (r : Registry) : Prop where
  maxLocals : r.maxLocals = m
  subroutines : ∀ entry sub, r.get? entry = some sub → sub.maxLocals = m

/-- A local is noted as accessed by a subroutine. -/
def Marks (r : Registry) (entry slot : Nat) : Prop := ∃ sub, r.get? entry = some sub ∧ slot ∈ sub.accessed

theorem Marks.mono (h : r.Marks entry slot) (hgrows : r.Grows t) : t.Marks entry slot := by
  obtain ⟨sub, hsub, hslot⟩ := h
  obtain ⟨sub', hsub', hgrows'⟩ := hgrows entry sub hsub
  exact ⟨sub', hsub', hgrows'.accessed hslot⟩

/-- The accesses in `t` are those in `r` and, of the locals that the method has, those in `P`. -/
structure Adds (m : Nat) (P : Nat → Nat → Prop) (r t : Registry) : Prop where
  sized : t.Sized m
  grows : r.Grows t
  marks : ∀ entry slot, t.Marks entry slot ↔ r.Marks entry slot ∨ slot < m ∧ P entry slot

theorem Adds.refl (h : r.Sized m) : r.Adds m (fun _ _ => False) r := ⟨h, .refl r, by simp⟩

theorem Adds.trans (h : r.Adds m P t) (k : t.Adds m Q u) : r.Adds m (fun e n => P e n ∨ Q e n) u := by
  refine ⟨k.sized, h.grows.trans k.grows, ?_⟩
  intro entry slot
  rw [k.marks, h.marks]
  tauto

theorem Adds.congr (h : r.Adds m P t) (hiff : ∀ entry slot, P entry slot ↔ Q entry slot) : r.Adds m Q t := by
  refine ⟨h.sized, h.grows, ?_⟩
  intro entry slot
  rw [h.marks, hiff]

/-- Changes that leave the accesses of every subroutine as they are. -/
theorem adds_nothing (hsized : t.Sized m) (hgrows : r.Grows t)
    (hsame : ∀ entry slot, t.Marks entry slot → r.Marks entry slot) : r.Adds m (fun _ _ => False) t := by
  refine ⟨hsized, hgrows, ?_⟩
  intro entry slot
  simp only [and_false, or_false]
  exact ⟨hsame entry slot, fun hmark => hmark.mono hgrows⟩

theorem adds_modify {f : Subroutine → Subroutine} (h : r.Sized m) (hgrows : ∀ sub : Subroutine, sub.Grows (f sub))
    (hsame : ∀ sub, (f sub).accessed = sub.accessed ∧ (f sub).maxLocals = sub.maxLocals) :
    r.Adds m (fun _ _ => False) (r.modify entry f) := by
  have hentry : ∀ sub, (f sub).entry = sub.entry := fun sub => (hgrows sub).entry
  -- what is found afterwards is what was found before, maybe changed
  have hfound : ∀ other sub', (r.modify entry f).get? other = some sub' →
      ∃ sub, r.get? other = some sub ∧ sub'.accessed = sub.accessed ∧ sub'.maxLocals = sub.maxLocals := by
    intro other sub' hsub'
    rw [get?_modify r hentry] at hsub'
    obtain ⟨sub, hsub, rfl⟩ := Option.map_eq_some_iff.mp hsub'
    refine ⟨sub, hsub, ?_⟩
    split
    · exact hsame sub
    · exact ⟨rfl, rfl⟩
  refine adds_nothing ⟨h.maxLocals, ?_⟩ (r.grows_modify hgrows) ?_
  · intro other sub' hsub'
    obtain ⟨sub, hsub, -, hmax⟩ := hfound other sub' hsub'
    rw [hmax]
    exact h.subroutines other sub hsub
  · rintro other slot ⟨sub', hsub', hslot⟩
    obtain ⟨sub, hsub, haccessed, -⟩ := hfound other sub' hsub'
    exact ⟨sub, hsub, haccessed ▸ hslot⟩

theorem adds_register (h : r.Sized m) (entry : Nat) : r.Adds m (fun _ _ => False) (r.register entry) := by
  refine adds_nothing ⟨?_, ?_⟩ (r.grows_register entry) ?_
  · unfold register
    split
    · exact h.maxLocals
    · exact h.maxLocals
  · intro other sub hsub
    rw [get?_register] at hsub
    split at hsub
    · obtain rfl := Option.some.inj hsub
      exact h.maxLocals
    · exact h.subroutines other sub hsub
  · rintro other slot ⟨sub, hsub, hslot⟩
    rw [get?_register] at hsub
    split at hsub
    · obtain rfl := Option.some.inj hsub
      simp [Subroutine.fresh] at hslot
    · exact ⟨sub, hsub, hslot⟩

/-- Registering a call of a subroutine adds no access. -/
theorem adds_call (h : r.Sized m) (entry next : Nat) :
    r.Adds m (fun _ _ => False) ((r.register entry).modify entry fun sub => sub.addRetTarget next) := by
  have hregister := adds_register h entry
  have hmodify := @adds_modify entry m (r.register entry) _ hregister.sized
    (fun sub => sub.grows_addRetTarget next) (fun _ => ⟨rfl, rfl⟩)
  exact (hregister.trans hmodify).congr (by simp)

end Registry

namespace Nesting

/-- All subroutines of a nesting are registered. -/
def Known (r : Registry) (n : Nesting) : Prop := ∀ entry ∈ n, (r.get? entry).isSome

variable {r t : Registry} {n other : Nesting}

theorem Known.mono (h : n.Known r) (hgrows : r.Grows t) : n.Known t := by
  intro entry hmem
  obtain ⟨sub, hsub⟩ := Option.isSome_iff_exists.mp (h entry hmem)
  obtain ⟨sub', hsub', -⟩ := hgrows entry sub hsub
  exact Option.isSome_of_eq_some hsub'

theorem Known.merge (h : n.Known r) (hother : other.Known r) : (n.merge other).Known r := by
  unfold Nesting.merge
  split
  · exact hother
  · split
    · intro entry hmem
      exact h entry ((shared_isFront n other).sublist.subset hmem)
    · exact h

/-- All subroutines of a nesting are registered, and it has a property. -/
def Admitted (Q : Nesting → Prop) (r : Registry) (n : Nesting) : Prop := n.Known r ∧ Q n

theorem Admitted.mono {Q : Nesting → Prop} (h : n.Admitted Q r) (hgrows : r.Grows t) : n.Admitted Q t :=
  ⟨h.1.mono hgrows, h.2⟩

end Nesting

/-- A charge adds the accesses for the active subroutines. -/
theorem Registry.adds_charge {m : Nat} {r : Registry} {active : Nesting} (h : r.Sized m) (hknown : active.Known r)
    (slots : List Nat) : r.Adds m (fun entry slot => entry ∈ active ∧ slot ∈ slots) (r.charge active slots) where
  sized := by
    refine ⟨h.maxLocals, ?_⟩
    intro entry sub' hsub'
    rw [get?_charge] at hsub'
    obtain ⟨sub, hsub, rfl⟩ := Option.map_eq_some_iff.mp hsub'
    split
    · rw [Subroutine.maxLocals_foldl_access]
      exact h.subroutines entry sub hsub
    · exact h.subroutines entry sub hsub
  grows := r.grows_charge active slots
  marks := by
    intro entry slot
    constructor
    · rintro ⟨sub', hsub', hslot⟩
      rw [get?_charge] at hsub'
      obtain ⟨sub, hsub, rfl⟩ := Option.map_eq_some_iff.mp hsub'
      split at hslot
      · rename_i hactive
        rw [entry_of_get? hsub, List.contains_iff_mem] at hactive
        rw [Subroutine.mem_foldl_access, h.subroutines entry sub hsub] at hslot
        rcases hslot with hold | ⟨hlt, hnew⟩
        · exact Or.inl ⟨sub, hsub, hold⟩
        · exact Or.inr ⟨hlt, hactive, hnew⟩
      · exact Or.inl ⟨sub, hsub, hslot⟩
    · rintro (hold | ⟨hlt, hactive, hnew⟩)
      · exact hold.mono (r.grows_charge active slots)
      · -- only a subroutine that is registered can be charged
        obtain ⟨sub, hsub⟩ := Option.isSome_iff_exists.mp (hknown entry hactive)
        refine ⟨slots.foldl Subroutine.access sub, ?_, ?_⟩
        · rw [get?_charge, hsub, Option.map_some, entry_of_get? hsub, if_pos (List.contains_iff_mem.mpr hactive)]
        · rw [Subroutine.mem_foldl_access, h.subroutines entry sub hsub]
          exact Or.inr ⟨hlt, hnew⟩

/-! ## Sessions that know their subroutines -/

namespace Session

variable {m : Nat} {Q : Nesting → Prop} {setup : Setup} {s t : Session} {i : Instruction} {frame : Frame}

/-- The subroutines that are active in frames that a session knows are registered in it.  The nestings of these frames
have a property `Q`, which merging keeps. -/
structure Tracks (m : Nat) (Q : Nesting → Prop) (s : Session) : Prop where
  merge : ∀ n other : Nesting, Q n → Q other → Q (n.merge other)
  sized : s.registry.Sized m
  states : ∀ p st, s.states.get? p = some st → st.frame.nesting.Admitted Q s.registry
  calls : ∀ p site, s.calls.get? p = some site → site.frame.nesting.Admitted Q s.registry
  retFrames : ∀ p f, s.retFrames.get? p = some f → f.nesting.Admitted Q s.registry

/-- Only states, calls, frames at `ret` instructions and the registry matter. -/
theorem Tracks.congr (h : s.Tracks m Q) (hstates : t.states = s.states) (hcalls : t.calls = s.calls)
    (hretFrames : t.retFrames = s.retFrames) (hregistry : t.registry = s.registry) : t.Tracks m Q := by
  obtain ⟨hmerge, hsized, hs, hc, hr⟩ := h
  refine ⟨hmerge, ?_, ?_, ?_, ?_⟩
  · rw [hregistry]
    exact hsized
  · rw [hstates, hregistry]
    exact hs
  · rw [hcalls, hregistry]
    exact hc
  · rw [hretFrames, hregistry]
    exact hr

theorem Tracks.merged {n other : Nesting} (h : s.Tracks m Q) (hn : n.Admitted Q s.registry)
    (hother : other.Admitted Q s.registry) : (n.merge other).Admitted Q s.registry :=
  ⟨hn.1.merge hother.1, h.merge n other hn.2 hother.2⟩

theorem Tracks.registry {P : Nat → Nat → Prop} {registry : Registry} (h : s.Tracks m Q)
    (hadds : s.registry.Adds m P registry) : { s with registry }.Tracks m Q where
  merge := h.merge
  sized := hadds.sized
  states p st hst := (h.states p st hst).mono hadds.grows
  calls p site hsite := (h.calls p site hsite).mono hadds.grows
  retFrames p f hf := (h.retFrames p f hf).mono hadds.grows

theorem Tracks.insertState {st : TypeState} (h : s.Tracks m Q)
    (hst : st.frame.nesting.Admitted Q s.registry) : { s with states := s.states.insert position st }.Tracks m Q :=
  { h with states := PositionMap.forall_insert h.states hst }

theorem Tracks.insertCall {site : CallSite} (h : s.Tracks m Q)
    (hsite : site.frame.nesting.Admitted Q s.registry) : { s with calls := s.calls.insert position site }.Tracks m Q :=
  { h with calls := PositionMap.forall_insert h.calls hsite }

theorem Tracks.insertRet (h : s.Tracks m Q) (hframe : frame.nesting.Admitted Q s.registry) :
    { s with retFrames := s.retFrames.insert position frame }.Tracks m Q :=
  { h with retFrames := PositionMap.forall_insert h.retFrames hframe }

theorem Tracks.note (h : s.Tracks m Q) (e : Event) : (s.note setup e).Tracks m Q := by
  rw [note_eq]
  exact h.congr rfl rfl rfl rfl

theorem Tracks.enqueue (h : s.Tracks m Q) (position : Nat) : (s.enqueue position).Tracks m Q := by
  rw [enqueue_eq]
  exact h.congr rfl rfl rfl rfl

theorem Tracks.enqueueAll (h : s.Tracks m Q) (positions : List Nat) : (s.enqueueAll positions).Tracks m Q := by
  rw [enqueueAll_eq]
  exact h.congr rfl rfl rfl rfl

theorem registry_note (e : Event) : (s.note setup e).registry = s.registry := by
  rw [note_eq]

theorem mergeInto_tracks (h : s.Tracks m Q) (hframe : frame.nesting.Admitted Q s.registry)
    (hmerge : s.mergeInto setup position frame = .ok t) : t.Tracks m Q := by
  obtain ⟨u, rfl, -, -, rfl⟩ | ⟨st, merged, u, rfl, hst, hmerged, ⟨-, rfl⟩ | rfl⟩ := mergeInto_eq_ok hmerge
  · refine ((h.note _).insertState ?_).enqueue position
    rw [registry_note]
    exact hframe
  · exact h
  · refine ((h.note _).insertState ?_).enqueue position
    show merged.nesting.Admitted Q _
    rw [registry_note, Frame.nesting_merge hmerged]
    exact h.merged (h.states position st hst) hframe

theorem mergeInto_registry (h : s.mergeInto setup position frame = .ok t) : t.registry = s.registry := by
  rw [mergeInto_eq h]

/-- Several merges of frames whose subroutines are known. -/
theorem foldlM_tracks {α : Type} {f : Session → α → Attempt Session} {as : List α}
    (hstep : ∀ s a t, s.Tracks m Q → frame.nesting.Admitted Q s.registry → f s a = .ok t → t.Tracks m Q ∧ t.registry = s.registry)
    (h : s.Tracks m Q) (hframe : frame.nesting.Admitted Q s.registry) (hfold : as.foldlM f s = .ok t) :
    t.Tracks m Q ∧ t.registry = s.registry := by
  refine foldlM_keeps (P := fun u : Session => u.Tracks m Q ∧ u.registry = s.registry) ?_ ⟨h, rfl⟩ hfold
  rintro u a t _ ⟨hu, hsame⟩ hmerge
  obtain ⟨htracks, hsame'⟩ := hstep u a t hu (hsame ▸ hframe) hmerge
  exact ⟨htracks, hsame'.trans hsame⟩

theorem mergeHandlers_tracks (h : s.Tracks m Q) (hframe : frame.nesting.Admitted Q s.registry)
    (hmerge : s.mergeHandlers setup position frame = .ok t) : t.Tracks m Q ∧ t.registry = s.registry := by
  unfold mergeHandlers at hmerge
  refine foldlM_tracks ?_ h hframe hmerge
  intro s handler t h hframe hmerge
  obtain ⟨caught, hcaught, hmerge⟩ := mergeHandler_eq_ok hmerge
  obtain ⟨rfl, -⟩ := Frame.checkHeight_eq_ok.mp hcaught
  refine ⟨mergeInto_tracks h ?_ hmerge, mergeInto_registry hmerge⟩
  exact hframe

theorem mergeIntoAll_tracks {positions : List Nat} (h : s.Tracks m Q) (hframe : frame.nesting.Admitted Q s.registry)
    (hmerge : s.mergeIntoAll setup positions frame = .ok t) : t.Tracks m Q ∧ t.registry = s.registry := by
  unfold mergeIntoAll at hmerge
  refine foldlM_tracks ?_ h hframe hmerge
  intro s position t h hframe hmerge
  exact ⟨mergeInto_tracks h hframe hmerge, mergeInto_registry hmerge⟩

/-! ## What one look charges -/

/-- Looking at an instruction with a frame charges the accesses of some locals to the subroutines of a nesting: an
operation those that it reads or writes, a call and a return the uninitialized objects that are given up. -/
inductive Charges (s : Session) (i : Instruction) (frame : Frame) : Nesting → List Nat → Prop
  | plain {op : Op} (hflow : i.flow = .plain op) : Charges s i frame frame.nesting op.slots
  | call {target : Nat} (hflow : i.flow = .jsr target) :
      Charges s i frame (frame.nesting ++ [target]) frame.uninitializedLocals
  | ret {slot : UInt16} {sub : Subroutine} {jsr : Nat} {site : CallSite} (hflow : i.flow = .ret slot)
      (haddress : frame.locals[slot.toNat]? = some (.returnAddress site.entry))
      (hsub : s.registry.get? site.entry = some sub) (hsite : s.calls.get? jsr = some site) :
      Charges s i frame site.frame.nesting
        (returnedFrame site.frame frame slot.toNat sub.isAccessed).uninitializedLocals

/-- The look charges an access of a local to a subroutine. -/
def ChargesTo (s : Session) (i : Instruction) (frame : Frame) (entry slot : Nat) : Prop :=
  ∃ active slots, s.Charges i frame active slots ∧ entry ∈ active ∧ slot ∈ slots

theorem interpretPlain_adds {op : Op} {next : Option Frame} (h : s.Tracks m Q)
    (hframe : frame.nesting.Admitted Q s.registry) (hplain : s.interpretPlain setup i op frame = .ok (t, next)) :
    t.Tracks m Q ∧ s.registry.Adds m (fun entry slot => entry ∈ frame.nesting ∧ slot ∈ op.slots) t.registry := by
  obtain ⟨after, hafter, -, hcases⟩ := interpretPlain_eq_ok hplain
  have hadds : s.registry.Adds m (fun entry slot => entry ∈ frame.nesting ∧ slot ∈ op.slots)
      (s.executed setup i op frame).registry := by
    rw [executed_eq hafter]
    exact Registry.adds_charge h.sized hframe.1 op.slots
  have hexecuted : (s.executed setup i op frame).Tracks m Q := by
    refine (h.registry hadds).congr ?_ ?_ ?_ rfl
    all_goals rw [executed_eq hafter]
  rcases hcases with ⟨-, hmerge⟩ | ⟨-, rfl⟩
  · have hafter' : after.nesting.Admitted Q (s.executed setup i op frame).registry := by
      rw [(Frame.after_effect Exec.sameShape_effect hafter).2]
      exact hframe.mono hadds.grows
    obtain ⟨htracks, hsame⟩ := mergeHandlers_tracks hexecuted hafter' hmerge
    exact ⟨htracks, hsame ▸ hadds⟩
  · exact ⟨hexecuted, hadds⟩

theorem recordCall_tracks {isNew isChanged : Bool} (h : s.Tracks m Q) (hframe : frame.nesting.Admitted Q s.registry)
    (hrecord : s.recordCall position entry frame = some (t, isNew, isChanged)) :
    t.Tracks m Q ∧ t.registry = s.registry := by
  obtain ⟨-, -, -, rfl⟩ | ⟨call, hcall, ⟨-, rfl⟩ | ⟨-, rfl⟩⟩ := recordCall_eq_some hrecord
  · exact ⟨h.insertCall hframe, rfl⟩
  · exact ⟨h, rfl⟩
  · exact ⟨h.insertCall (h.merged (h.calls position call hcall) hframe), rfl⟩

/-- A subroutine starts with itself active, and is charged with what is given up. -/
theorem subroutineEntry_eq_ok {start : Frame} {registry registry' : Registry}
    (h : subroutineEntry setup entry frame registry = .ok (start, registry')) :
    start.nesting = frame.nesting ++ [entry] ∧
      registry' = registry.charge (frame.nesting ++ [entry]) frame.uninitializedLocals := by
  unfold subroutineEntry at h
  obtain ⟨pushed, hpushed, h⟩ := bind_eq_ok.mp h
  obtain ⟨nesting, hnesting, h⟩ := bind_eq_ok.mp h
  obtain ⟨rfl, -⟩ := Frame.checkHeight_eq_ok.mp hpushed
  obtain ⟨rfl, rfl⟩ := Prod.mk.inj (pure_eq_ok.mp h)
  unfold Nesting.enter at hnesting
  split at hnesting
  · simp at hnesting
  · obtain rfl := Except.ok.inj hnesting
    exact ⟨rfl, rfl⟩

theorem interpretJsr_adds (h : s.Tracks m Q) (hframe : frame.nesting.Admitted Q s.registry)
    (henter : Q (frame.nesting ++ [entry])) (hjsr : s.interpretJsr setup i entry frame = .ok t) :
    t.Tracks m Q ∧ s.registry.Adds m
      (fun callee slot => callee ∈ frame.nesting ++ [entry] ∧ slot ∈ frame.uninitializedLocals) t.registry := by
  obtain ⟨u, isNew, isChanged, start, registry, w, hrecord, hentry, hmerge, hcases⟩ := interpretJsr_eq_ok hjsr
  obtain ⟨htracks, hsame⟩ := recordCall_tracks h hframe hrecord
  rw [← hsame] at hframe ⊢
  have hregistered := Registry.adds_call htracks.sized entry i.next
  obtain ⟨hstart, rfl⟩ := subroutineEntry_eq_ok hentry
  have hknown : Nesting.Known ((u.registry.register entry).modify entry fun sub => sub.addRetTarget i.next)
      (frame.nesting ++ [entry]) := by
    intro callee hmem
    rcases List.mem_append.mp hmem with hactive | hself
    · exact (hframe.mono hregistered.grows).1 callee hactive
    · obtain ⟨-, sub, hsub, -⟩ := register_spec u.registry entry i.next
      rw [List.mem_singleton.mp hself]
      exact Option.isSome_of_eq_some hsub
  -- the subroutine that is entered pays for what is given up, too
  have hcharge := Registry.adds_charge hregistered.sized hknown frame.uninitializedLocals
  have hw : w.Tracks m Q := by
    refine mergeInto_tracks (htracks.registry (hregistered.trans hcharge)) ?_ hmerge
    rw [hstart]
    exact ⟨hknown.mono hcharge.grows, henter⟩
  have hadds : u.registry.Adds m
      (fun callee slot => callee ∈ frame.nesting ++ [entry] ∧ slot ∈ frame.uninitializedLocals) w.registry := by
    rw [mergeInto_registry hmerge]
    exact (hregistered.trans hcharge).congr (by simp)
  obtain ⟨noted, rets, rfl, -, rfl⟩ | ⟨-, rfl⟩ := hcases
  · refine ⟨(hw.note _).enqueueAll _, ?_⟩
    rw [enqueueAll_eq, note_eq]
    exact hadds
  · exact ⟨hw, hadds⟩

theorem returnTo_adds {slot : UInt16} {jsr : Nat} {site : CallSite} {accessed : Nat → Bool} (h : s.Tracks m Q)
    (hsite : site.frame.nesting.Admitted Q s.registry)
    (hreturn : returnTo setup i slot entry frame accessed s (jsr, site) = .ok t) :
    t.Tracks m Q ∧ s.registry.Adds m (fun active k => active ∈ site.frame.nesting ∧
      k ∈ (returnedFrame site.frame frame slot.toNat accessed).uninitializedLocals) t.registry := by
  have hadds := Registry.adds_charge h.sized hsite.1
    (returnedFrame site.frame frame slot.toNat accessed).uninitializedLocals
  obtain ⟨-, caller, registry, -, -, rfl, hmerge⟩ := returnTo_eq_ok hreturn
  have hbound : { s with jsrRets := s.jsrRets.insert jsr i.position }.Tracks m Q := h.congr rfl rfl rfl rfl
  constructor
  · refine mergeInto_tracks ((hbound.registry hadds).note _) ?_ hmerge
    rw [registry_note]
    exact hsite.mono hadds.grows
  · rw [mergeInto_registry hmerge, registry_note]
    exact hadds

/-- Returning to several calls, one after the other. -/
theorem returnToAll_adds {slot : UInt16} {accessed : Nat → Bool} {calls : List (Nat × CallSite)}
    (h : s.Tracks m Q) (hsites : ∀ call ∈ calls, call.2.frame.nesting.Admitted Q s.registry)
    (hfold : calls.foldlM (returnTo setup i slot entry frame accessed) s = .ok t) :
    t.Tracks m Q ∧ s.registry.Adds m (fun active k => ∃ call ∈ calls, active ∈ call.2.frame.nesting ∧
      k ∈ (returnedFrame call.2.frame frame slot.toNat accessed).uninitializedLocals) t.registry := by
  induction calls generalizing s with
  | nil =>
    rw [List.foldlM_nil, pure_eq_ok] at hfold
    subst hfold
    exact ⟨h, (Registry.Adds.refl h.sized).congr (by simp)⟩
  | cons call calls ih =>
    rw [List.foldlM_cons, bind_eq_ok] at hfold
    obtain ⟨u, hu, hrest⟩ := hfold
    obtain ⟨htracks, hadds⟩ := returnTo_adds h (hsites call (List.mem_cons_self ..)) hu
    -- returning to the first call forgets no subroutine of the others
    have hlater : ∀ other ∈ calls, other.2.frame.nesting.Admitted Q u.registry := by
      intro other hmem
      exact (hsites other (List.mem_cons_of_mem call hmem)).mono hadds.grows
    obtain ⟨htracks', hadds'⟩ := ih htracks hlater hrest
    refine ⟨htracks', (hadds.trans hadds').congr ?_⟩
    intro active k
    simp only [List.exists_mem_cons_iff]

theorem chargesTo_plain {op : Op} (hflow : i.flow = .plain op) :
    s.ChargesTo i frame entry slot ↔ entry ∈ frame.nesting ∧ slot ∈ op.slots := by
  constructor
  · rintro ⟨active, slots, hcharges, hentry, hslot⟩
    cases hcharges with
    | plain hflow' =>
      obtain rfl := Flow.plain.inj (hflow.symm.trans hflow')
      exact ⟨hentry, hslot⟩
    | call hflow' => simp [hflow] at hflow'
    | ret hflow' => simp [hflow] at hflow'
  · rintro ⟨hentry, hslot⟩
    exact ⟨_, _, .plain hflow, hentry, hslot⟩

theorem chargesTo_call {target : Nat} (hflow : i.flow = .jsr target) :
    s.ChargesTo i frame entry slot ↔ entry ∈ frame.nesting ++ [target] ∧ slot ∈ frame.uninitializedLocals := by
  constructor
  · rintro ⟨active, slots, hcharges, hentry, hslot⟩
    cases hcharges with
    | plain hflow' => simp [hflow] at hflow'
    | call hflow' =>
      obtain rfl := Flow.jsr.inj (hflow.symm.trans hflow')
      exact ⟨hentry, hslot⟩
    | ret hflow' => simp [hflow] at hflow'
  · rintro ⟨hentry, hslot⟩
    exact ⟨_, _, .call hflow, hentry, hslot⟩

theorem chargesTo_ret {returnLocal : UInt16} {callee : Nat} {sub : Subroutine}
    (hflow : i.flow = .ret returnLocal) (haddress : frame.locals[returnLocal.toNat]? = some (.returnAddress callee))
    (hsub : s.registry.get? callee = some sub) :
    s.ChargesTo i frame entry slot ↔ ∃ jsr site, s.calls.get? jsr = some site ∧ site.entry = callee ∧
      entry ∈ site.frame.nesting ∧
      slot ∈ (returnedFrame site.frame frame returnLocal.toNat sub.isAccessed).uninitializedLocals := by
  constructor
  · rintro ⟨active, slots, hcharges, hentry, hslot⟩
    cases hcharges with
    | plain hflow' => simp [hflow] at hflow'
    | call hflow' => simp [hflow] at hflow'
    | ret hflow' haddress' hsub' hsite =>
      obtain rfl := Flow.ret.inj (hflow.symm.trans hflow')
      obtain rfl := VType.returnAddress.inj (Option.some.inj (haddress.symm.trans haddress'))
      obtain rfl := Option.some.inj (hsub.symm.trans hsub')
      exact ⟨_, _, hsite, rfl, hentry, hslot⟩
  · rintro ⟨jsr, site, hsite, rfl, hentry, hslot⟩
    exact ⟨_, _, .ret hflow haddress hsub hsite, hentry, hslot⟩

/-- Instructions of other kinds charge nothing. -/
theorem not_chargesTo (hplain : ∀ op, i.flow ≠ .plain op) (hcall : ∀ target, i.flow ≠ .jsr target)
    (hret : ∀ returnLocal, i.flow ≠ .ret returnLocal) : ¬ s.ChargesTo i frame entry slot := by
  rintro ⟨active, slots, hcharges, -⟩
  cases hcharges with
  | plain hflow => exact hplain _ hflow
  | call hflow => exact hcall _ hflow
  | ret hflow => exact hret _ hflow

theorem interpretRet_adds {returnLocal : UInt16} (hflow : i.flow = .ret returnLocal) (h : s.Tracks m Q)
    (hret : s.interpretRet setup i returnLocal frame = .ok t) :
    t.Tracks m Q ∧ s.registry.Adds m (s.ChargesTo i frame) t.registry := by
  obtain ⟨callee, popped, outer, sub, registry, haddress, -, -, hsub, rfl, hreturn⟩ := interpretRet_eq_ok hret
  have hmodify := @Registry.adds_modify callee m s.registry _ h.sized
    (fun sub => sub.grows_addRetInstruction i.position) (fun _ => ⟨rfl, rfl⟩)
  have hpopped : { s with framesPopped := s.framesPopped.insert i.position popped }.Tracks m Q :=
    h.congr rfl rfl rfl rfl
  have hsites : ∀ call ∈ s.calls.toList.filter (fun call => call.2.entry = callee),
      call.2.frame.nesting.Admitted Q (s.registry.modify callee fun r => r.addRetInstruction i.position) := by
    intro call hmem
    have hsite := PositionMap.mem_toList.mp (List.mem_filter.mp hmem).1
    exact (h.calls call.1 call.2 hsite).mono hmodify.grows
  obtain ⟨htracks, hadds⟩ := returnToAll_adds (hpopped.registry hmodify) hsites hreturn
  refine ⟨htracks, (hmodify.trans hadds).congr ?_⟩
  intro entry slot
  -- the set of accessed locals that the loop looks at stands for the list in the registry
  rw [chargesTo_ret hflow haddress hsub, false_or]
  constructor
  · rintro ⟨⟨jsr, site⟩, hmem, hentry, hslot⟩
    obtain ⟨hmem, hcallee⟩ := List.mem_filter.mp hmem
    rw [← returnedFrame_congr site.frame returnLocal.toNat fun k => isAccessed_eq_contains sub] at hslot
    exact ⟨jsr, site, PositionMap.mem_toList.mp hmem, of_decide_eq_true hcallee, hentry, hslot⟩
  · rintro ⟨jsr, site, hsite, hcallee, hentry, hslot⟩
    refine ⟨(jsr, site), List.mem_filter.mpr ⟨PositionMap.mem_toList.mpr hsite, decide_eq_true hcallee⟩, hentry, ?_⟩
    rw [← returnedFrame_congr site.frame returnLocal.toNat fun k => isAccessed_eq_contains sub]
    exact hslot

/-- What is charged depends on the registry and the calls that are known. -/
theorem ChargesTo.congr (h : s.ChargesTo i frame entry slot) (hregistry : t.registry = s.registry)
    (hcalls : t.calls = s.calls) : t.ChargesTo i frame entry slot := by
  obtain ⟨active, slots, hcharges, hentry, hslot⟩ := h
  refine ⟨active, slots, ?_, hentry, hslot⟩
  cases hcharges with
  | plain hflow => exact .plain hflow
  | call hflow => exact .call hflow
  | ret hflow haddress hsub hsite =>
    rw [← hregistry] at hsub
    rw [← hcalls] at hsite
    exact .ret hflow haddress hsub hsite

/-- A look at an instruction adds to the accesses what it charges. -/
theorem interpretOne_adds {next : Option Frame} (h : s.Tracks m Q) (hframe : frame.nesting.Admitted Q s.registry)
    (henter : ∀ target, i.flow = .jsr target → Q (frame.nesting ++ [target]))
    (hone : s.interpretOne setup i frame = .ok (t, next)) :
    t.Tracks m Q ∧ s.registry.Adds m (s.ChargesTo i frame) t.registry := by
  obtain ⟨u, hmerge, hworks⟩ := interpretOne_eq_ok hone
  have hlooked : (s.looked setup i frame).Tracks m Q := by
    rw [looked_eq]
    exact h.congr rfl rfl rfl rfl
  have hsame : u.registry = s.registry ∧ u.calls = s.calls := by
    rw [mergeHandlers_eq hmerge, looked_eq]
    exact ⟨rfl, rfl⟩
  have hu : u.Tracks m Q := by
    refine (mergeHandlers_tracks hlooked ?_ hmerge).1
    rw [looked_eq]
    exact hframe
  rw [← hsame.1] at hframe
  -- what comes before the work proper adds nothing
  have hquiet : (∀ op, i.flow ≠ .plain op) → (∀ target, i.flow ≠ .jsr target) →
      (∀ returnLocal, i.flow ≠ .ret returnLocal) → s.registry.Adds m (s.ChargesTo i frame) s.registry := by
    intro hplain hcall hret
    apply (Registry.Adds.refl h.sized).congr
    intro entry slot
    exact ⟨False.elim, not_chargesTo hplain hcall hret⟩
  cases hworks with
  | plain hflow hplain =>
    obtain ⟨htracks, hadds⟩ := interpretPlain_adds hu hframe hplain
    rw [hsame.1] at hadds
    exact ⟨htracks, hadds.congr fun entry slot => (chargesTo_plain hflow).symm⟩
  | branch hflow hbranch hmerge' =>
    have hshape := Frame.executeBranch_effect Exec.sameShape_effect hbranch
    refine ⟨mergeInto_tracks hu (hshape.2 ▸ hframe) hmerge', ?_⟩
    rw [mergeInto_registry hmerge', hsame.1]
    exact hquiet (by simp [hflow]) (by simp [hflow]) (by simp [hflow])
  | select hflow hselect hmerge' =>
    have hshape := Frame.executeSelect_effect Exec.sameShape_effect hselect
    obtain ⟨htracks, hsame'⟩ := mergeIntoAll_tracks hu (hshape.2 ▸ hframe) hmerge'
    refine ⟨htracks, ?_⟩
    rw [hsame', hsame.1]
    exact hquiet (by simp [hflow]) (by simp [hflow]) (by simp [hflow])
  | jsr hflow hjsr =>
    obtain ⟨htracks, hadds⟩ := interpretJsr_adds hu hframe (henter _ hflow) hjsr
    rw [hsame.1] at hadds
    exact ⟨htracks, hadds.congr fun entry slot => (chargesTo_call hflow).symm⟩
  | ret hflow hret =>
    obtain ⟨htracks, hadds⟩ := interpretRet_adds hflow (hu.insertRet hframe) hret
    refine ⟨htracks, ?_⟩
    rw [← hsame.1]
    refine hadds.congr fun entry slot => ⟨fun hcharges => ?_, fun hcharges => ?_⟩
    · exact hcharges.congr hsame.1.symm hsame.2.symm
    · exact hcharges.congr hsame.1 hsame.2

end Session

end Bytecode
