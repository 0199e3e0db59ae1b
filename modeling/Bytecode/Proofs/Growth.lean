import Bytecode.Proofs.DecodedBody
import Bytecode.Proofs.Monotonicity
import Bytecode.Proofs.Tables
import Bytecode.Verification.Inference
import Mathlib.Data.List.Nodup

/-!
# What is known only grows

While a method is verified, states and frames at calls become more general, and nothing that was found is
lost.  A state that changes is put on the worklist, and so are the `ret` instructions of a subroutine when a
call of it is new or changes.

* `Session.Learns`, `Session.Grows`: what is known in one session is known in a later one;
* `Session.WellFormed`: frames have a slot for every local, and states stand only where code can be entered;
* `Session.mergeInto_eq_ok`, `Session.interpretJsr_eq_ok`, `Session.returnTo_eq_ok`, `Session.interpretRet_eq_ok`: what
  the parts of a round do if they go through;
* `Session.mergeInto_spec`, `Session.interpretJsr_spec`, `Session.interpretRet_spec`: what they see to.
-/

namespace Bytecode

namespace Setup

def maxLocals (setup : Setup) : Nat := setup.method.code.maxLocals.toNat

/-- Places with a state of their own: control can come to them from elsewhere than the instruction in front. -/
def IsHead (setup : Setup) (position : Nat) : Prop :=
  setup.mergePoints.contains position = true ∨ position = 0

/-- The body tiles its code, and every place named in it, behind a call or in a handler is a head. -/
structure Prepared (setup : Setup) (code : List UInt8) : Prop where
  tiles : setup.body.Tiles code
  targets : ∀ (index : Nat) (i : Instruction), setup.body.get? index = some i → ∀ t ∈ i.targets, setup.IsHead t
  continuations : ∀ (index : Nat) (i : Instruction) (target : Nat), setup.body.get? index = some i →
    i.flow = .jsr target → setup.IsHead i.next
  handlers : ∀ h ∈ setup.handlers, setup.IsHead h.target
  caught : ∀ h ∈ setup.handlers, h.catchType.isReference = true

/-- Code without subroutines: nothing can bring a return address onto the stack, since constants stand for values. -/
structure IsPlain (setup : Setup) : Prop where
  loadable : setup.method.constants.GivesValues
  jsr : ∀ (index : Nat) (i : Instruction) (target : Nat), setup.body.get? index = some i → i.flow ≠ .jsr target
  ret : ∀ (index : Nat) (i : Instruction) (slot : UInt16), setup.body.get? index = some i → i.flow ≠ .ret slot

end Setup

namespace Frame

/-- A frame of a method: it has all locals, with whole values in them, and no subroutine is active twice. -/
structure Fits (setup : Setup) (f : Frame) : Prop where
  length : f.locals.length = setup.maxLocals
  paired : Exec.Paired f.locals
  nodup : f.nesting.Nodup
  values : setup.IsPlain → f.HasValues

theorem paired_normalized (ts : List VType) : Exec.Paired (normalized ts) := by
  induction ts with
  | nil =>
    intro k t hk
    simp [normalized] at hk
  | cons t ts ih =>
    intro k u hk hwide
    unfold normalized at hk ⊢
    cases k with
    | zero =>
      rw [List.getElem?_cons_zero] at hk
      obtain rfl := Option.some.inj hk
      split at hwide
      · simp [width] at hwide
      · rename_i hkept
        have hhead : ts.head? = some .top := by
          by_contra hne
          exact hkept ⟨hwide, hne⟩
        obtain ⟨rest, rfl⟩ : ∃ rest, ts = .top :: rest := by
          cases ts with
          | nil => simp at hhead
          | cons a rest => exact ⟨rest, by rw [Option.some.inj hhead]⟩
        simp [normalized, width]
    | succ k =>
      rw [List.getElem?_cons_succ] at hk ⊢
      exact ih k u hk hwide

theorem paired_withoutUninitialized {f : Frame} (h : Exec.Paired f.locals) : Exec.Paired f.withoutUninitialized.locals := by
  apply Exec.paired_map h
  · rfl
  · intro t ht
    split at ht
    · simp [width] at ht
    · rename_i hinit
      rw [if_neg hinit]

variable {setup : Setup} {f g : Frame}

theorem Fits.of_effects (h : f.Fits setup) (hshape : Exec.SameShape f g) (hpaired : Exec.Paired f.locals → Exec.Paired g.locals)
    (hvalues : setup.IsPlain → g.HasValues) : g.Fits setup :=
  ⟨hshape.1.trans h.length, hpaired h.paired, by rw [hshape.2]; exact h.nodup, hvalues⟩

theorem Fits.after {op : Op} {position : Nat} (h : f.Fits setup) (hafter : f.after op (setup.context position) = .ok g) :
    g.Fits setup :=
  h.of_effects (after_effect Exec.sameShape_effect hafter) (after_effect Exec.paired_effect hafter)
    fun hplain => (h.values hplain).after h.paired hplain.loadable hafter

theorem Fits.executeBranch {kind : BranchKind} (h : f.Fits setup) (hbranch : f.executeBranch kind = .ok g) : g.Fits setup :=
  h.of_effects (executeBranch_effect Exec.sameShape_effect hbranch) (executeBranch_effect Exec.paired_effect hbranch)
    fun hplain => (h.values hplain).executeBranch h.paired hbranch

theorem Fits.executeSelect (h : f.Fits setup) (hselect : f.executeSelect = .ok g) : g.Fits setup :=
  h.of_effects (executeSelect_effect Exec.sameShape_effect hselect) (executeSelect_effect Exec.paired_effect hselect)
    fun hplain => (h.values hplain).executeSelect h.paired hselect

theorem nesting_merge {incoming merged : Frame} (h : f.merge incoming = .ok merged) :
    merged.nesting = f.nesting.merge incoming.nesting := by
  unfold Frame.merge at h
  split at h
  · simp at h
  · split at h
    · simp at h
    · obtain rfl := Except.ok.inj h
      rfl

end Frame

namespace Session

variable {setup : Setup} {code : List UInt8} {s t u : Session} {i : Instruction} {frame : Frame} {position entry : Nat}

/-- The tables of a session cover the code of a length. -/
structure Sized (length : Nat) (s : Session) : Prop where
  states : s.states.bound = length
  calls : s.calls.bound = length
  retFrames : s.retFrames.bound = length
  jsrRets : s.jsrRets.bound = length
  framesPopped : s.framesPopped.bound = length
  returnStores : s.returnStores.marks.size = length
  visited : s.visited.marks.size = length

structure WellFormed (setup : Setup) (s : Session) : Prop where
  sized : s.Sized setup.body.codeLength
  states : ∀ p st, s.states.get? p = some st → st.frame.Fits setup ∧ setup.IsHead p
  calls : ∀ p call, s.calls.get? p = some call → call.frame.Fits setup ∧
    ∃ (index : Nat) (i : Instruction), setup.body.get? index = some i ∧ i.position = p ∧ i.flow = .jsr call.entry
  retFrames : ∀ p f, s.retFrames.get? p = some f → f.Fits setup

/-- What is known in `s` is known in `t`, and what has to be looked at because of the difference is on the
worklist of `t`. -/
structure Learns (s t : Session) : Prop where
  states : ∀ p st, s.states.get? p = some st → ∃ st', t.states.get? p = some st' ∧ st.frame.Below st'.frame
  changed : ∀ p st', t.states.get? p = some st' →
    p ∈ t.worklist ∨ ∃ st, s.states.get? p = some st ∧ st.frame = st'.frame
  registry : s.registry.Grows t.registry
  calls : ∀ p call, s.calls.get? p = some call → ∃ call', t.calls.get? p = some call' ∧
    call'.entry = call.entry ∧ call.frame.LocallyBelow call'.frame
  called : ∀ p call', t.calls.get? p = some call' → s.calls.get? p = some call' ∨
    ∀ sub, s.registry.get? call'.entry = some sub → sub.retInstructions ⊆ t.worklist
  jsrRets : ∀ p ret, s.jsrRets.get? p = some ret → t.jsrRets.get? p = some ret
  framesPopped : ∀ p popped, s.framesPopped.get? p = some popped → t.framesPopped.get? p = some popped
  returnStores : ∀ p, s.returnStores.contains p = true → t.returnStores.contains p = true
  visited : ∀ p, s.visited.contains p = true → t.visited.contains p = true

/-- More is known, and what had to be looked at still has to be. -/
structure Grows (s t : Session) : Prop extends Learns s t where
  worklist : s.worklist ⊆ t.worklist

theorem Grows.refl (s : Session) : s.Grows s where
  states _ st h := ⟨st, h, .refl _⟩
  changed _ st h := Or.inr ⟨st, h, rfl⟩
  worklist _ := id
  registry := .refl _
  calls _ call h := ⟨call, h, rfl, .refl _⟩
  called _ _ := Or.inl
  jsrRets _ _ := id
  framesPopped _ _ := id
  returnStores _ := id
  visited _ := id

theorem Learns.trans (h : s.Learns t) (k : t.Grows u) : s.Learns u where
  states p st hst := by
    obtain ⟨st', hst', hbelow⟩ := h.states p st hst
    obtain ⟨st'', hst'', hbelow'⟩ := k.states p st' hst'
    exact ⟨st'', hst'', hbelow.trans hbelow'⟩
  changed p st'' hst'' := by
    rcases k.changed p st'' hst'' with hwork | ⟨st', hst', hsame'⟩
    · exact Or.inl hwork
    · rcases h.changed p st' hst' with hwork | ⟨st, hst, hsame⟩
      · exact Or.inl (k.worklist hwork)
      · exact Or.inr ⟨st, hst, hsame.trans hsame'⟩
  registry := h.registry.trans k.registry
  calls p call hcall := by
    obtain ⟨call', hcall', hentry, hbelow⟩ := h.calls p call hcall
    obtain ⟨call'', hcall'', hentry', hbelow'⟩ := k.calls p call' hcall'
    exact ⟨call'', hcall'', hentry'.trans hentry, hbelow.trans hbelow'⟩
  called p call'' hcall'' := by
    rcases k.called p call'' hcall'' with hcall' | hrets
    · rcases h.called p call'' hcall' with hcall | hrets
      · exact Or.inl hcall
      · exact Or.inr fun sub hsub => List.Subset.trans (hrets sub hsub) k.worklist
    · refine Or.inr fun sub hsub => ?_
      obtain ⟨sub', hsub', hgrows⟩ := h.registry _ sub hsub
      exact List.Subset.trans hgrows.retInstructions (hrets sub' hsub')
  jsrRets p ret hret := k.jsrRets p ret (h.jsrRets p ret hret)
  framesPopped p popped hpopped := k.framesPopped p popped (h.framesPopped p popped hpopped)
  returnStores p hp := k.returnStores p (h.returnStores p hp)
  visited p hp := k.visited p (h.visited p hp)

theorem Grows.trans (h : s.Grows t) (k : t.Grows u) : s.Grows u :=
  ⟨h.toLearns.trans k, List.Subset.trans h.worklist k.worklist⟩

/-- A part of the work on one instruction: what is known grows, no other instruction is looked at, and the
frames at `ret` instructions stay. -/
structure Step (s t : Session) : Prop extends Grows s t where
  retFrames : t.retFrames = s.retFrames
  sameVisited : t.visited = s.visited

theorem Step.refl (s : Session) : s.Step s := ⟨.refl s, rfl, rfl⟩

theorem Step.trans (h : s.Step t) (k : t.Step u) : s.Step u :=
  ⟨h.toGrows.trans k.toGrows, k.retFrames.trans h.retFrames, k.sameVisited.trans h.sameVisited⟩

/-- The frame is below the state of the place. -/
def Delivered (s : Session) (position : Nat) (frame : Frame) : Prop :=
  ∃ st, s.states.get? position = some st ∧ frame.Below st.frame

theorem Delivered.mono (h : s.Delivered position frame) (hgrows : s.Learns t) : t.Delivered position frame := by
  obtain ⟨st, hst, hbelow⟩ := h
  obtain ⟨st', hst', hbelow'⟩ := hgrows.states position st hst
  exact ⟨st', hst', hbelow.trans hbelow'⟩

/-! ## Small steps -/

theorem note_eq (s : Session) (setup : Setup) (e : Event) :
    s.note setup e = { s with events := (s.note setup e).events } := by
  unfold note
  split <;> rfl

theorem enqueue_eq (s : Session) (position : Nat) :
    s.enqueue position = { s with worklist := (s.enqueue position).worklist } := by
  unfold enqueue
  split <;> rfl

theorem mem_enqueue {p q : Nat} : q ∈ (s.enqueue p).worklist ↔ q ∈ s.worklist ∨ q = p := by
  unfold enqueue
  split
  · rename_i hcontains
    constructor
    · exact Or.inl
    · rintro (hmem | rfl)
      · exact hmem
      · simpa using hcontains
  · simp

theorem enqueueAll_eq (s : Session) (positions : List Nat) :
    s.enqueueAll positions = { s with worklist := (s.enqueueAll positions).worklist } := by
  unfold enqueueAll
  induction positions generalizing s with
  | nil => rfl
  | cons p rest ih =>
    rw [List.foldl_cons, ih (s.enqueue p), enqueue_eq s p]

theorem mem_enqueueAll {positions : List Nat} {q : Nat} :
    q ∈ (s.enqueueAll positions).worklist ↔ q ∈ s.worklist ∨ q ∈ positions := by
  unfold enqueueAll
  induction positions generalizing s with
  | nil => simp
  | cons p rest ih =>
    rw [List.foldl_cons, ih, mem_enqueue, List.mem_cons, or_assoc]

theorem require_eq_ok {α : Type} {x : Except VerifyFault α} {a : α} :
    s.require setup position x = .ok a ↔ x = .ok a := by
  unfold require reject
  split <;> simp

/-- Only the registry grows. -/
theorem step_registry {registry : Registry} (h : s.registry.Grows registry) : s.Step { s with registry } where
  toGrows := { Grows.refl s with registry := h }
  retFrames := rfl
  sameVisited := rfl

theorem step_note (s : Session) (setup : Setup) (e : Event) : s.Step (s.note setup e) := by
  rw [note_eq]
  exact ⟨{ Grows.refl s with }, rfl, rfl⟩

theorem step_enqueueAll (s : Session) (positions : List Nat) : s.Step (s.enqueueAll positions) := by
  have hwork : ∀ q, q ∈ (s.enqueueAll positions).worklist ↔ q ∈ s.worklist ∨ q ∈ positions := fun q => mem_enqueueAll
  rw [enqueueAll_eq] at hwork ⊢
  refine ⟨{ Grows.refl s with changed := ?_, worklist := ?_, called := fun p call hcall => Or.inl hcall }, rfl, rfl⟩
  · intro p st hst
    exact Or.inr ⟨st, hst, rfl⟩
  · intro q hq
    exact (hwork q).mpr (Or.inl hq)

/-- Whether a session is well-formed does not depend on the registry, the worklist and the events. -/
theorem WellFormed.congr (h : s.WellFormed setup) (hstates : t.states = s.states) (hcalls : t.calls = s.calls)
    (hretFrames : t.retFrames = s.retFrames) (hjsrRets : t.jsrRets.bound = s.jsrRets.bound)
    (hframesPopped : t.framesPopped.bound = s.framesPopped.bound)
    (hreturnStores : t.returnStores.marks.size = s.returnStores.marks.size)
    (hvisited : t.visited.marks.size = s.visited.marks.size) : t.WellFormed setup where
  sized := by
    refine ⟨?_, ?_, ?_, hjsrRets.trans h.sized.jsrRets, hframesPopped.trans h.sized.framesPopped,
      hreturnStores.trans h.sized.returnStores, hvisited.trans h.sized.visited⟩
    · rw [hstates]
      exact h.sized.states
    · rw [hcalls]
      exact h.sized.calls
    · rw [hretFrames]
      exact h.sized.retFrames
  states := by
    rw [hstates]
    exact h.states
  calls := by
    rw [hcalls]
    exact h.calls
  retFrames := by
    rw [hretFrames]
    exact h.retFrames

theorem WellFormed.registry (h : s.WellFormed setup) (registry : Registry) : { s with registry }.WellFormed setup :=
  h.congr rfl rfl rfl rfl rfl rfl rfl

theorem WellFormed.note (h : s.WellFormed setup) (e : Event) : (s.note setup e).WellFormed setup := by
  rw [note_eq]
  exact h.congr rfl rfl rfl rfl rfl rfl rfl

theorem WellFormed.enqueueAll (h : s.WellFormed setup) (positions : List Nat) :
    (s.enqueueAll positions).WellFormed setup := by
  rw [enqueueAll_eq]
  exact h.congr rfl rfl rfl rfl rfl rfl rfl

/-! ## Merging -/

theorem fits_merge {f incoming merged : Frame} (hf : f.Fits setup) (hincoming : incoming.Fits setup)
    (h : f.merge incoming = .ok merged) : merged.Fits setup := by
  have hlength : f.locals.length = incoming.locals.length := by rw [hf.length, hincoming.length]
  obtain ⟨hbelow, -⟩ := Frame.merge_above h hlength
  unfold Frame.merge at h
  split at h
  · simp at h
  · split at h
    · simp at h
    · rename_i stack hstack
      obtain rfl := Except.ok.inj h
      refine ⟨hbelow.locals.length_eq.symm.trans hf.length, Frame.paired_normalized _,
        Nesting.nodup_merge hf.nodup hincoming.nodup, ?_⟩
      intro hplain t ht
      obtain ⟨k, hk⟩ := List.mem_iff_getElem?.mp ht
      obtain ⟨u, hu, hle⟩ := forall₂_getElem? hbelow.stack hk
      exact (hf.values hplain u (List.mem_of_getElem? hu)).of_le hle.1 (Frame.joinStacks_ne_top hstack t ht)

/-- A state that is new, or more general than before, is put on the worklist. -/
theorem step_insert {st : TypeState} (hold : ∀ old, s.states.get? position = some old → old.frame.Below st.frame) :
    s.Step ({ s with states := s.states.insert position st }.enqueue position) := by
  have hwork : ∀ q, q ∈ ({ s with states := s.states.insert position st }.enqueue position).worklist ↔
      q ∈ s.worklist ∨ q = position := fun q => mem_enqueue
  rw [enqueue_eq] at hwork ⊢
  refine ⟨?_, rfl, rfl⟩
  have hsame : s.Grows s := .refl s
  refine { hsame with states := ?_, changed := ?_, worklist := ?_, called := ?_ }
  · intro p old hget
    by_cases hp : position = p
    · subst hp
      refine ⟨st, ?_, hold old hget⟩
      exact PositionMap.get?_insert_self st (PositionMap.lt_bound_of_get? hget)
    · exact ⟨old, (PositionMap.get?_insert_ne s.states st hp).trans hget, .refl _⟩
  · intro p new hget
    by_cases hp : position = p
    · exact Or.inl ((hwork p).mpr (Or.inr hp.symm))
    · rw [PositionMap.get?_insert_ne s.states st hp] at hget
      exact Or.inr ⟨new, hget, rfl⟩
  · intro p call hcall
    exact Or.inl hcall
  · intro q hq
    exact (hwork q).mpr (Or.inl hq)

theorem WellFormed.insertState {st : TypeState} (h : s.WellFormed setup) (hst : st.frame.Fits setup)
    (hhead : setup.IsHead position) : { s with states := s.states.insert position st }.WellFormed setup := by
  refine ⟨{ h.sized with states := (s.states.bound_insert position st).trans h.sized.states }, ?_, h.calls,
    h.retFrames⟩
  exact PositionMap.forall_insert h.states ⟨hst, hhead⟩

theorem WellFormed.enqueue (h : s.WellFormed setup) (position : Nat) : (s.enqueue position).WellFormed setup := by
  rw [enqueue_eq]
  exact h.congr rfl rfl rfl rfl rfl rfl rfl

/-- A merge that goes through gives a place its first state, or finds one that it leaves or changes. -/
theorem mergeInto_eq_ok (h : s.mergeInto setup position frame = .ok t) :
    (∃ u, u = s.note setup (.newState position frame) ∧ s.states.get? position = none ∧ position < s.states.bound ∧
      t = { u with states := u.states.insert position (.fresh position frame) }.enqueue position) ∨
    ∃ st merged u, u = s.note setup (.mergedState position merged) ∧ s.states.get? position = some st ∧
      st.frame.merge frame = .ok merged ∧ (merged = st.frame ∧ t = s ∨
        t = { u with states := u.states.insert position { st with frame := merged } }.enqueue position) := by
  unfold mergeInto at h
  split at h
  · simp [reject] at h
  · rename_i hslot
    have hnone : s.states.get? position = none := by simp [PositionMap.get?, hslot]
    exact Or.inl ⟨_, rfl, hnone, PositionMap.lt_bound_of_slot? hslot, (Except.ok.inj h).symm⟩
  · rename_i st hslot
    have hsome : s.states.get? position = some st := PositionMap.get?_eq_some_iff.mpr hslot
    unfold TypeState.merge at h
    cases hmerge : st.frame.merge frame with
    | error fault => simp [hmerge, reject] at h
    | ok merged =>
      rw [hmerge] at h
      refine Or.inr ⟨st, merged, _, rfl, hsome, hmerge, ?_⟩
      by_cases hchanged : merged = st.frame
      · simp only [ne_eq, hchanged, not_true_eq_false, decide_false] at h
        exact Or.inl ⟨hchanged, (Except.ok.inj h).symm⟩
      · simp only [ne_eq, hchanged, not_false_eq_true, decide_true] at h
        exact Or.inr (Except.ok.inj h).symm

/-- Merging a frame into a place delivers it there. -/
theorem mergeInto_spec (hwf : s.WellFormed setup) (hframe : frame.Fits setup) (hhead : setup.IsHead position)
    (h : s.mergeInto setup position frame = .ok t) : s.Step t ∧ t.WellFormed setup ∧ t.Delivered position frame := by
  obtain ⟨u, rfl, hnone, hbound, rfl⟩ | ⟨st, merged, u, rfl, hsome, hmerge, hcases⟩ := mergeInto_eq_ok h
  · refine ⟨(step_note s setup _).trans (step_insert fun old hold => ?_),
      ((hwf.note _).insertState hframe hhead).enqueue _, .fresh position frame, ?_, .refl _⟩
    · rw [states_note, hnone] at hold
      simp at hold
    · rw [states_enqueue, states_note]
      exact PositionMap.get?_insert_self _ hbound
  · have hfits := (hwf.states position st hsome).1
    have hlength : st.frame.locals.length = frame.locals.length := by rw [hfits.length, hframe.length]
    obtain ⟨hold, hnew⟩ := Frame.merge_above hmerge hlength
    rcases hcases with ⟨hsame, rfl⟩ | rfl
    · exact ⟨.refl t, hwf, st, hsome, hsame ▸ hnew⟩
    · refine ⟨(step_note s setup _).trans (step_insert fun old hget => ?_),
        ((hwf.note _).insertState (fits_merge hfits hframe hmerge) hhead).enqueue _, { st with frame := merged }, ?_, hnew⟩
      · rw [states_note] at hget
        obtain rfl := Option.some.inj (hsome.symm.trans hget)
        exact hold
      · rw [states_enqueue, states_note]
        exact PositionMap.get?_insert_self _ (PositionMap.lt_bound_of_get? hsome)

/-- Merging changes states, and what has to be looked at, only. -/
theorem mergeInto_eq (h : s.mergeInto setup position frame = .ok t) :
    t = { s with states := t.states, worklist := t.worklist, events := t.events } := by
  have hinsert : ∀ (u : Session) (states : PositionMap TypeState), u = { s with events := u.events } →
      { u with states }.enqueue position = { s with
        states := ({ u with states }.enqueue position).states
        worklist := ({ u with states }.enqueue position).worklist
        events := ({ u with states }.enqueue position).events } := by
    intro u states hu
    rw [enqueue_eq, hu]
  obtain ⟨u, rfl, -, -, rfl⟩ | ⟨st, merged, u, rfl, -, -, ⟨-, rfl⟩ | rfl⟩ := mergeInto_eq_ok h
  · exact hinsert _ _ (note_eq s setup _)
  · rfl
  · exact hinsert _ _ (note_eq s setup _)

/-- The frame in which a handler starts, when an exception is thrown with a frame. -/
def Caught (setup : Setup) (h : Handler) (frame caught : Frame) : Prop :=
  (⟨frame.locals, [], frame.nesting⟩ : Frame).push h.catchType setup.maxStack = .ok caught

/-- A frame is delivered to every handler that covers a position. -/
def HandlersReached (s : Session) (setup : Setup) (position : Nat) (frame : Frame) : Prop :=
  ∀ h ∈ setup.handlers, h.covers position = true →
    ∃ caught, Caught setup h frame caught ∧ s.Delivered h.target caught

theorem HandlersReached.mono (h : s.HandlersReached setup position frame) (hgrows : s.Learns t) :
    t.HandlersReached setup position frame := by
  intro handler hmem hcovers
  obtain ⟨caught, hcaught, hdelivered⟩ := h handler hmem hcovers
  exact ⟨caught, hcaught, hdelivered.mono hgrows⟩

/-- Several merges, one after the other. -/
theorem foldlM_merge_eq {α : Type} {f : Session → α → Attempt Session} {as : List α}
    (hstep : ∀ s a t, f s a = .ok t → t = { s with states := t.states, worklist := t.worklist, events := t.events })
    (h : as.foldlM f s = .ok t) : t = { s with states := t.states, worklist := t.worklist, events := t.events } := by
  induction as generalizing s with
  | nil =>
    rw [List.foldlM_nil, pure_eq_ok] at h
    rw [← h]
  | cons a as ih =>
    rw [List.foldlM_cons, bind_eq_ok] at h
    obtain ⟨u, hu, hrest⟩ := h
    have hlast := ih hrest
    rw [hstep s a u hu] at hlast
    exact hlast

theorem mergeHandler_eq_ok {handler : Handler} (h : mergeHandler setup frame s handler = .ok t) :
    ∃ caught, Caught setup handler frame caught ∧ s.mergeInto setup handler.target caught = .ok t := by
  unfold mergeHandler at h
  dsimp only at h
  split at h
  · simp at h
  · rename_i caught hcaught
    exact ⟨caught, require_eq_ok.mp hcaught, h⟩

theorem mergeHandler_eq {handler : Handler} (h : mergeHandler setup frame s handler = .ok t) :
    t = { s with states := t.states, worklist := t.worklist, events := t.events } := by
  obtain ⟨caught, -, hmerge⟩ := mergeHandler_eq_ok h
  exact mergeInto_eq hmerge

theorem mergeHandlers_eq (h : s.mergeHandlers setup position frame = .ok t) :
    t = { s with states := t.states, worklist := t.worklist, events := t.events } := by
  unfold mergeHandlers at h
  exact foldlM_merge_eq (fun _ _ _ => mergeHandler_eq) h

theorem mergeIntoAll_eq {positions : List Nat} (h : s.mergeIntoAll setup positions frame = .ok t) :
    t = { s with states := t.states, worklist := t.worklist, events := t.events } := by
  unfold mergeIntoAll at h
  exact foldlM_merge_eq (fun _ _ _ => mergeInto_eq) h

theorem fits_caught {handler : Handler} {caught : Frame} (hp : setup.Prepared code) (hframe : frame.Fits setup)
    (hmem : handler ∈ setup.handlers) (h : Caught setup handler frame caught) : caught.Fits setup := by
  obtain ⟨rfl, -⟩ := Frame.checkHeight_eq_ok.mp h
  refine ⟨hframe.length, hframe.paired, hframe.nodup, ?_⟩
  intro _ t ht
  rw [List.mem_singleton.mp ht]
  exact VType.isValue_of_isReference (hp.caught handler hmem)

theorem mergeHandlers_spec (hp : setup.Prepared code) (hwf : s.WellFormed setup) (hframe : frame.Fits setup)
    (h : s.mergeHandlers setup position frame = .ok t) :
    s.Step t ∧ t.WellFormed setup ∧ t.HandlersReached setup position frame := by
  unfold mergeHandlers at h
  have hspec := foldlM_spec (G := Step) (P := fun s => s.WellFormed setup)
    (Q := fun s handler => ∃ caught, Caught setup handler frame caught ∧ s.Delivered handler.target caught)
    Step.refl Step.trans
    (fun _ _ _ hstep ⟨caught, hcaught, hdelivered⟩ => ⟨caught, hcaught, hdelivered.mono hstep.toLearns⟩) ?_ hwf h
  · obtain ⟨hstep, hwf', hreached⟩ := hspec
    exact ⟨hstep, hwf', fun handler hmem hcovers => hreached handler (List.mem_filter.mpr ⟨hmem, hcovers⟩)⟩
  · intro s handler t hmem hwf hmerge
    obtain ⟨caught, hcaught, hmerge⟩ := mergeHandler_eq_ok hmerge
    have hfits := fits_caught hp hframe (List.mem_filter.mp hmem).1 hcaught
    obtain ⟨hstep, hwf', hdelivered⟩ := mergeInto_spec hwf hfits (hp.handlers handler (List.mem_filter.mp hmem).1) hmerge
    exact ⟨hstep, hwf', caught, hcaught, hdelivered⟩

theorem mergeIntoAll_spec {positions : List Nat} (hwf : s.WellFormed setup) (hframe : frame.Fits setup)
    (hheads : ∀ p ∈ positions, setup.IsHead p) (h : s.mergeIntoAll setup positions frame = .ok t) :
    s.Step t ∧ t.WellFormed setup ∧ ∀ p ∈ positions, t.Delivered p frame := by
  unfold mergeIntoAll at h
  refine foldlM_spec (G := Step) (P := fun s => s.WellFormed setup) (Q := fun s p => s.Delivered p frame)
    Step.refl Step.trans (fun _ _ _ hstep hdelivered => hdelivered.mono hstep.toLearns) ?_ hwf h
  intro s p t hmem hwf hmerge
  exact mergeInto_spec hwf hframe (hheads p hmem) hmerge

/-! ## Calls -/

theorem fits_absorb {f other : Frame} (hf : f.Fits setup) (hother : other.Fits setup) :
    (f.absorb other).Fits setup := by
  have hlength : f.locals.length = other.locals.length := by rw [hf.length, hother.length]
  obtain ⟨hbelow, -⟩ := Frame.absorb_above hlength
  exact ⟨hbelow.locals.length_eq.symm.trans hf.length, Frame.paired_normalized _,
    Nesting.nodup_merge hf.nodup hother.nodup, hf.values⟩

/-- The calls after one from a position was noted with a frame. -/
structure Noted (s : Session) (position entry : Nat) (frame : Frame) (calls : PositionMap CallSite) : Prop where
  own : ∃ call, calls.get? position = some call ∧ call.entry = entry ∧ frame.LocallyBelow call.frame
  kept : ∀ p call, s.calls.get? p = some call → ∃ call', calls.get? p = some call' ∧
    call'.entry = call.entry ∧ call.frame.LocallyBelow call'.frame
  others : ∀ p call', calls.get? p = some call' → p = position ∧ call'.entry = entry ∨ s.calls.get? p = some call'

theorem noted_insert {call : CallSite} (hbound : position < s.calls.bound) (hentry : call.entry = entry)
    (hbelow : frame.LocallyBelow call.frame)
    (hold : ∀ old, s.calls.get? position = some old → call.entry = old.entry ∧ old.frame.LocallyBelow call.frame) :
    s.Noted position entry frame (s.calls.insert position call) where
  own := ⟨call, PositionMap.get?_insert_self call hbound, hentry, hbelow⟩
  kept p old hget := by
    by_cases hp : position = p
    · subst hp
      exact ⟨call, PositionMap.get?_insert_self call hbound, hold old hget⟩
    · exact ⟨old, (PositionMap.get?_insert_ne s.calls call hp).trans hget, rfl, .refl _⟩
  others p new hget := by
    rw [PositionMap.get?_insert] at hget
    split at hget
    · rename_i hp
      obtain rfl := Option.some.inj hget
      exact Or.inl ⟨hp.1.symm, hentry⟩
    · exact Or.inr hget

theorem WellFormed.insertCall {call : CallSite} (h : s.WellFormed setup) (hfits : call.frame.Fits setup)
    (hjsr : ∃ (index : Nat) (i : Instruction), setup.body.get? index = some i ∧ i.position = position ∧
      i.flow = .jsr call.entry) : { s with calls := s.calls.insert position call }.WellFormed setup := by
  refine ⟨{ h.sized with calls := (s.calls.bound_insert position call).trans h.sized.calls }, h.states, ?_,
    h.retFrames⟩
  exact PositionMap.forall_insert h.calls ⟨hfits, hjsr⟩

/-- A call that is recorded is new, or its frame is taken in by the one that is known of it. -/
theorem recordCall_eq_some {isNew isChanged : Bool} (h : s.recordCall position entry frame = some (t, isNew, isChanged)) :
    (s.calls.get? position = none ∧ position < s.calls.bound ∧ isNew = true ∧
      t = { s with calls := s.calls.insert position ⟨entry, frame⟩ }) ∨
    ∃ call, s.calls.get? position = some call ∧ (call.frame.absorb frame = call.frame ∧ t = s ∨ isChanged = true ∧
      t = { s with calls := s.calls.insert position { call with frame := call.frame.absorb frame } }) := by
  unfold recordCall at h
  split at h
  · simp at h
  · rename_i hslot
    obtain ⟨rfl, rfl, -⟩ : _ = t ∧ true = isNew ∧ false = isChanged := by simpa using h
    exact Or.inl ⟨by simp [PositionMap.get?, hslot], PositionMap.lt_bound_of_slot? hslot, rfl, rfl⟩
  · rename_i call hslot
    refine Or.inr ⟨call, PositionMap.get?_eq_some_iff.mpr hslot, ?_⟩
    dsimp only at h
    split at h
    · rename_i hsame
      exact Or.inl ⟨hsame, (Prod.mk.inj (Option.some.inj h)).1.symm⟩
    · obtain ⟨rfl, -, rfl⟩ : _ = t ∧ false = isNew ∧ true = isChanged := by simpa using h
      exact Or.inr ⟨rfl, rfl⟩

/-- Recording a call changes nothing but the calls. -/
theorem recordCall_eq {isNew isChanged : Bool} (h : s.recordCall position entry frame = some (t, isNew, isChanged)) :
    t = { s with calls := t.calls } := by
  obtain ⟨-, -, -, rfl⟩ | ⟨call, -, ⟨-, rfl⟩ | ⟨-, rfl⟩⟩ := recordCall_eq_some h <;> rfl

theorem recordCall_spec {index : Nat} {isNew isChanged : Bool} (hp : setup.Prepared code) (hwf : s.WellFormed setup)
    (hframe : frame.Fits setup) (hi : setup.body.get? index = some i) (hflow : i.flow = .jsr entry)
    (h : s.recordCall i.position entry frame = some (t, isNew, isChanged)) :
    ∃ calls, t = { s with calls } ∧ s.Noted i.position entry frame calls ∧ t.WellFormed setup ∧
      ((isNew || isChanged) = false → calls = s.calls) := by
  obtain ⟨hnone, hbound, rfl, rfl⟩ | ⟨call, hcall, hcases⟩ := recordCall_eq_some h
  · refine ⟨_, rfl, noted_insert hbound rfl (.refl frame) ?_, hwf.insertCall hframe ⟨index, i, hi, rfl, hflow⟩, by simp⟩
    intro old hold
    simp [hnone] at hold
  · obtain ⟨hfits, index', i', hi', hposition, hflow'⟩ := hwf.calls _ call hcall
    have hentry : call.entry = entry := by
      obtain rfl := hp.tiles.index_eq hi' hi hposition
      obtain rfl := Option.some.inj (hi.symm.trans hi')
      exact (Flow.jsr.inj (hflow.symm.trans hflow')).symm
    have hlength : call.frame.locals.length = frame.locals.length := by rw [hfits.length, hframe.length]
    obtain ⟨hold, hnew⟩ := Frame.absorb_above hlength
    rcases hcases with ⟨hsame, rfl⟩ | ⟨rfl, rfl⟩
    · rw [hsame] at hnew
      exact ⟨t.calls, rfl, ⟨⟨call, hcall, hentry, hnew⟩, fun p old hget => ⟨old, hget, rfl, .refl _⟩,
        fun p new hget => Or.inr hget⟩, hwf, fun _ => rfl⟩
    · have hbound := PositionMap.lt_bound_of_get? hcall
      refine ⟨_, rfl, noted_insert hbound hentry hnew ?_, hwf.insertCall (fits_absorb hfits hframe) ?_, ?_⟩
      · intro old hget
        obtain rfl := Option.some.inj (hcall.symm.trans hget)
        exact ⟨rfl, hold⟩
      · exact ⟨index', i', hi', hposition, hflow'⟩
      · simp

/-- The frame in which a subroutine starts when it is called with a frame. -/
def startFrame (setup : Setup) (entry : Nat) (frame : Frame) : Except VerifyFault Frame := do
  let frame ← frame.push (.returnAddress entry) setup.maxStack
  let nesting ← frame.nesting.enter entry
  return ({ frame with nesting } : Frame).withoutUninitialized

theorem subroutineEntry_spec {start : Frame} {registry registry' : Registry}
    (h : subroutineEntry setup entry frame registry = .ok (start, registry')) :
    startFrame setup entry frame = .ok start ∧ registry.Grows registry' := by
  unfold subroutineEntry at h
  obtain ⟨pushed, hpushed, h⟩ := bind_eq_ok.mp h
  obtain ⟨nesting, hnesting, h⟩ := bind_eq_ok.mp h
  obtain ⟨rfl, rfl⟩ := Prod.mk.inj (pure_eq_ok.mp h)
  refine ⟨?_, Registry.grows_charge _ _ _⟩
  unfold startFrame
  rw [bind_eq_ok]
  exact ⟨pushed, hpushed, bind_eq_ok.mpr ⟨nesting, hnesting, rfl⟩⟩

/-- A subroutine starts with the locals of the call, without uninitialized objects, and with one more active
subroutine. -/
theorem startFrame_eq_ok {start : Frame} (h : startFrame setup entry frame = .ok start) :
    start.locals = frame.withoutUninitialized.locals ∧ start.stack = .returnAddress entry :: frame.stack ∧
      start.nesting = frame.nesting ++ [entry] ∧ entry ∉ frame.nesting ∧ start.height ≤ setup.maxStack := by
  unfold startFrame at h
  obtain ⟨pushed, hpushed, h⟩ := bind_eq_ok.mp h
  obtain ⟨nesting, hnesting, h⟩ := bind_eq_ok.mp h
  obtain rfl := pure_eq_ok.mp h
  obtain ⟨rfl, hheight⟩ := Frame.checkHeight_eq_ok.mp hpushed
  unfold Nesting.enter at hnesting
  split at hnesting
  · simp at hnesting
  · rename_i hcontains
    obtain rfl := Except.ok.inj hnesting
    exact ⟨rfl, rfl, rfl, by simpa using hcontains, hheight⟩

theorem fits_startFrame {index : Nat} {start : Frame} (hframe : frame.Fits setup) (hi : setup.body.get? index = some i)
    (hflow : i.flow = .jsr entry) (h : startFrame setup entry frame = .ok start) : start.Fits setup := by
  obtain ⟨hlocals, -, hnesting, hnew, -⟩ := startFrame_eq_ok h
  refine ⟨?_, ?_, ?_, ?_⟩
  · rw [hlocals, Frame.withoutUninitialized, List.length_map]
    exact hframe.length
  · rw [hlocals]
    exact Frame.paired_withoutUninitialized hframe.paired
  · rw [hnesting]
    refine List.nodup_append.mpr ⟨hframe.nodup, List.nodup_singleton entry, ?_⟩
    rintro a ha b hb rfl
    rw [List.mem_singleton.mp hb] at ha
    exact hnew ha
  · intro hplain
    exact absurd hflow (hplain.jsr index i entry hi)

/-- What is known after a call was looked at with a frame. -/
structure Entered (setup : Setup) (s : Session) (i : Instruction) (entry : Nat) (frame : Frame) : Prop where
  call : ∃ call, s.calls.get? i.position = some call ∧ call.entry = entry ∧ frame.LocallyBelow call.frame
  start : ∃ start, startFrame setup entry frame = .ok start ∧ s.Delivered entry start
  registered : ∃ sub, s.registry.get? entry = some sub ∧ i.next ∈ sub.retTargets

theorem Entered.mono (h : Entered setup s i entry frame) (hgrows : s.Learns t) : Entered setup t i entry frame where
  call := by
    obtain ⟨call, hcall, hentry, hbelow⟩ := h.call
    obtain ⟨call', hcall', hentry', hbelow'⟩ := hgrows.calls _ call hcall
    exact ⟨call', hcall', hentry'.trans hentry, hbelow.trans hbelow'⟩
  start := by
    obtain ⟨start, hstart, hdelivered⟩ := h.start
    exact ⟨start, hstart, hdelivered.mono hgrows⟩
  registered := by
    obtain ⟨sub, hsub, hnext⟩ := h.registered
    obtain ⟨sub', hsub', hgrows'⟩ := hgrows.registry entry sub hsub
    exact ⟨sub', hsub', hgrows'.retTargets hnext⟩

/-- Noting a call is growth, once the `ret` instructions of the subroutine are on the worklist if the call is
new or changed. -/
theorem Noted.step {calls : PositionMap CallSite} (h : s.Noted position entry frame calls)
    (hstep : Step { s with calls } u) (hut : u.Step t)
    (hrets : calls = s.calls ∨ ∀ sub, s.registry.get? entry = some sub → sub.retInstructions ⊆ t.worklist) :
    s.Step t := by
  have hall := hstep.trans hut
  refine ⟨{ hall.toGrows with calls := ?_, called := ?_ }, hall.retFrames, hall.sameVisited⟩
  · intro p call hcall
    obtain ⟨call', hcall', hentry, hbelow⟩ := h.kept p call hcall
    obtain ⟨call'', hcall'', hentry', hbelow'⟩ := hall.calls p call' hcall'
    exact ⟨call'', hcall'', hentry'.trans hentry, hbelow.trans hbelow'⟩
  · intro p call' hcall'
    rcases hall.called p call' hcall' with hnoted | hothers
    · have hnoted : calls.get? p = some call' := hnoted
      rcases hrets with rfl | hrets
      · exact Or.inl hnoted
      · rcases h.others p call' hnoted with ⟨-, rfl⟩ | hold
        · exact Or.inr hrets
        · exact Or.inl hold
    · exact Or.inr hothers

/-- A registered subroutine knows where its call returns to. -/
theorem register_spec (registry : Registry) (entry next : Nat) :
    let registry' := (registry.register entry).modify entry fun r => r.addRetTarget next
    registry.Grows registry' ∧ ∃ sub, registry'.get? entry = some sub ∧ next ∈ sub.retTargets := by
  obtain ⟨sub, hsub⟩ := registry.exists_get?_register entry
  refine ⟨(registry.grows_register entry).trans (Registry.grows_modify _ fun sub => sub.grows_addRetTarget next),
    sub.addRetTarget next, ?_, Subroutine.mem_addNew.mpr (Or.inl rfl)⟩
  exact Registry.get?_modify_self (f := fun r => r.addRetTarget next) (fun _ => rfl) hsub

/-- What a call does, if it goes through. -/
theorem interpretJsr_eq_ok (h : s.interpretJsr setup i entry frame = .ok t) :
    ∃ u isNew isChanged start registry w, s.recordCall i.position entry frame = some (u, isNew, isChanged) ∧
      subroutineEntry setup entry frame ((u.registry.register entry).modify entry fun r => r.addRetTarget i.next)
        = .ok (start, registry) ∧ { u with registry }.mergeInto setup entry start = .ok w ∧
      ((∃ noted rets, noted = w.note setup (.callSite i.position entry) ∧
        rets = (noted.registry.get? entry).elim [] Subroutine.retInstructions ∧
        t = noted.enqueueAll (if isNew then entry :: rets else rets)) ∨ (isNew || isChanged) = false ∧ t = w) := by
  unfold interpretJsr at h
  split at h
  · simp [reject] at h
  · rename_i u isNew isChanged hrecord
    dsimp only at h
    split at h
    · simp at h
    · rename_i start registry hentry
      split at h
      · simp at h
      · rename_i w hmerge
        refine ⟨u, isNew, isChanged, start, registry, w, hrecord, require_eq_ok.mp hentry, hmerge, ?_⟩
        split at h
        · exact Or.inl ⟨_, _, rfl, rfl, (Except.ok.inj h).symm⟩
        · rename_i hflags
          exact Or.inr ⟨by simpa using hflags, (Except.ok.inj h).symm⟩

theorem interpretJsr_spec {index : Nat} (hp : setup.Prepared code) (hwf : s.WellFormed setup)
    (hframe : frame.Fits setup) (hi : setup.body.get? index = some i) (hflow : i.flow = .jsr entry)
    (h : s.interpretJsr setup i entry frame = .ok t) :
    s.Step t ∧ t.WellFormed setup ∧ Entered setup t i entry frame := by
  have hhead : setup.IsHead entry := by
    refine hp.targets index i hi entry ?_
    simp [Instruction.targets, hflow]
  obtain ⟨s₁, isNew, isChanged, start, registry, u, hrecord, hentry, hmerge, hcases⟩ := interpretJsr_eq_ok h
  obtain ⟨calls, rfl, hnoted, hwf₁, hsame⟩ := recordCall_spec hp hwf hframe hi hflow hrecord
  obtain ⟨hstart, hregistry⟩ := subroutineEntry_spec hentry
  obtain ⟨hknown, hreturns⟩ := register_spec s.registry entry i.next
  obtain ⟨hstep, hwf₂, hdelivered⟩ :=
    mergeInto_spec (hwf₁.registry registry) (fits_startFrame hframe hi hflow hstart) hhead hmerge
  have hstep₁ : Step { s with calls } u :=
    (@step_registry { s with calls } registry (hknown.trans hregistry)).trans hstep
  have hregistered : ∃ sub, u.registry.get? entry = some sub ∧ i.next ∈ sub.retTargets := by
    obtain ⟨sub, hsub, hnext⟩ := hreturns
    obtain ⟨sub', hsub', hgrows'⟩ := (hregistry.trans hstep.registry) entry sub hsub
    exact ⟨sub', hsub', hgrows'.retTargets hnext⟩
  have hentered : Entered setup u i entry frame := by
    refine ⟨?_, ⟨start, hstart, hdelivered⟩, hregistered⟩
    obtain ⟨call, hcall, hentry', hbelow⟩ := hnoted.own
    obtain ⟨call', hcall', hentry'', hbelow'⟩ := hstep₁.calls _ call hcall
    exact ⟨call', hcall', hentry''.trans hentry', hbelow.trans hbelow'⟩
  obtain ⟨noted, rets, rfl, rfl, rfl⟩ | ⟨hflags, rfl⟩ := hcases
  · have hut : ∀ positions, u.Step ((u.note setup (.callSite i.position entry)).enqueueAll positions) :=
      fun positions => (step_note u setup _).trans (step_enqueueAll _ positions)
    refine ⟨hnoted.step hstep₁ (hut _) (Or.inr ?_), (hwf₂.note _).enqueueAll _, hentered.mono (hut _).toLearns⟩
    intro sub hsub ret hret
    obtain ⟨sub', hsub', hgrows'⟩ := (hstep₁.trans (step_note u setup _)).registry entry sub hsub
    refine mem_enqueueAll.mpr (Or.inr ?_)
    have hret' := hgrows'.retInstructions hret
    rw [hsub']
    split
    · exact List.mem_cons_of_mem _ hret'
    · exact hret'
  · exact ⟨hnoted.step hstep₁ (.refl t) (Or.inl (hsame hflags)), hwf₂, hentered⟩

/-- A call changes what is known of frames, calls and subroutines only. -/
theorem interpretJsr_eq (h : s.interpretJsr setup i entry frame = .ok t) :
    t = { s with states := t.states, worklist := t.worklist, registry := t.registry, calls := t.calls, events := t.events } := by
  obtain ⟨u, isNew, isChanged, start, registry, w, hrecord, -, hmerge, hcases⟩ := interpretJsr_eq_ok h
  have hmerged : w = { s with
      states := w.states, worklist := w.worklist, registry := w.registry, calls := w.calls, events := w.events } := by
    rw [mergeInto_eq hmerge, recordCall_eq hrecord]
  obtain ⟨noted, rets, rfl, -, rfl⟩ | ⟨-, rfl⟩ := hcases
  · rw [enqueueAll_eq, note_eq, hmerged]
  · exact hmerged

theorem interpretJsr_jsrRets (h : s.interpretJsr setup i entry frame = .ok t) : t.jsrRets = s.jsrRets := by
  rw [interpretJsr_eq h]

/-! ## Returns -/

/-- The frame behind a call, when the subroutine returns. -/
def continuationFrame (call ret : Frame) (returnLocal : Nat) (accessed : Nat → Bool) : Frame :=
  (returnedFrame call ret returnLocal accessed).withoutUninitialized

theorem fits_continuationFrame {call ret : Frame} (hcall : call.Fits setup) (hret : ret.Fits setup) (returnLocal : Nat)
    (accessed : Nat → Bool) : (continuationFrame call ret returnLocal accessed).Fits setup := by
  refine ⟨?_, Frame.paired_withoutUninitialized (Frame.paired_normalized _), hcall.nodup, hret.values⟩
  unfold continuationFrame returnedFrame Frame.withoutUninitialized Frame.normalizeLocals
  rw [List.length_map, ← (Frame.le_normalized _).length_eq, List.length_map, List.length_zipIdx, List.length_zip,
    hcall.length, hret.length, Nat.min_self]

/-- Only accesses of locals that there are matter. -/
theorem returnedFrame_congr (call : Frame) {ret : Frame} (returnLocal : Nat) {f g : Nat → Bool}
    (h : ∀ k < ret.locals.length, f k = g k) :
    returnedFrame call ret returnLocal f = returnedFrame call ret returnLocal g := by
  unfold returnedFrame
  refine congrArg (fun locals => ({ locals, stack := ret.stack, nesting := call.nesting } : Frame).normalizeLocals) ?_
  apply List.map_congr_left
  rintro ⟨⟨atCall, atRet⟩, k⟩ hmem
  have hlt := List.snd_lt_of_mem_zipIdx hmem
  rw [List.length_zip] at hlt
  simp only [h k (by omega)]

/-- The set of accessed locals that a `ret` looks at. -/
theorem isAccessed_eq_contains (sub : Subroutine) {bound k : Nat} (hk : k < bound) :
    sub.isAccessed k = ((PositionSet.empty bound).insertAll sub.accessed).contains k := by
  rw [Bool.eq_iff_iff, PositionSet.contains_insertAll_iff, PositionSet.contains_empty, PositionSet.size_empty]
  unfold Subroutine.isAccessed
  rw [List.contains_iff_mem]
  simp [hk]

/-- A subroutine returned to a call: the call is bound to the `ret`, and the frame behind it is delivered. -/
def ReturnedTo (setup : Setup) (s : Session) (ret : Nat) (returnLocal : Nat) (frame : Frame)
    (seen : Nat → Bool) (jsr : Nat) (site : CallSite) : Prop :=
  s.jsrRets.get? jsr = some ret ∧ ∃ caller, setup.body.startingAt? jsr = some caller ∧
    s.Delivered caller.next (continuationFrame site.frame frame returnLocal seen)

theorem ReturnedTo.mono {ret returnLocal jsr : Nat} {seen : Nat → Bool} {site : CallSite}
    (h : ReturnedTo setup s ret returnLocal frame seen jsr site) (hgrows : s.Learns t) :
    ReturnedTo setup t ret returnLocal frame seen jsr site := by
  obtain ⟨hbound, caller, hcaller, hdelivered⟩ := h
  exact ⟨hgrows.jsrRets jsr ret hbound, caller, hcaller, hdelivered.mono hgrows⟩

/-- A subroutine returned from a `ret` to all calls that are known, with the locals accessed that were seen to be
accessed then. -/
structure Returned (setup : Setup) (s : Session) (ret : Nat) (returnLocal entry : Nat) (frame : Frame)
    (seen : Nat → Bool) : Prop where
  accessed : ∀ k, seen k = true → ∃ sub, s.registry.get? entry = some sub ∧ k ∈ sub.accessed
  calls : ∀ jsr site, s.calls.get? jsr = some site → site.entry = entry →
    ReturnedTo setup s ret returnLocal frame seen jsr site

/-- Binding a call to its `ret` does not change a binding that is there. -/
theorem step_bind {jsr ret : Nat} (hsame : ∀ other, s.jsrRets.get? jsr = some other → other = ret) :
    s.Step { s with jsrRets := s.jsrRets.insert jsr ret } := by
  refine ⟨{ Grows.refl s with jsrRets := ?_ }, rfl, rfl⟩
  intro p other hother
  by_cases hp : jsr = p
  · subst hp
    rw [hsame other hother]
    exact PositionMap.get?_insert_self ret (PositionMap.lt_bound_of_get? hother)
  · exact (PositionMap.get?_insert_ne s.jsrRets ret hp).trans hother

/-- What a return to a call has checked and does, if it goes through. -/
theorem returnTo_eq_ok {index : UInt16} {accessed : Nat → Bool} {jsr : Nat} {site : CallSite}
    (h : returnTo setup i index entry frame accessed s (jsr, site) = .ok t) :
    (s.jsrRets.get? jsr).any (· ≠ i.position) = false ∧ ∃ caller registry, setup.body.startingAt? jsr = some caller ∧
      (setup.body.indexOf? caller.next).isSome = true ∧
      registry = ((returnedFrame site.frame frame index.toNat accessed).killUninitialized s.registry).2 ∧
      ({ s with jsrRets := s.jsrRets.insert jsr i.position, registry }.note setup
        (.returning i.position entry caller.next)).mergeInto setup caller.next
          (continuationFrame site.frame frame index.toNat accessed) = .ok t := by
  unfold returnTo at h
  dsimp only at h
  split at h
  · simp [reject] at h
  · rename_i hbound
    split at h
    · simp [reject] at h
    · rename_i caller hcaller
      split at h
      · simp [reject] at h
      · rename_i hnext
        exact ⟨by simpa using hbound, caller, _, hcaller, by simpa [Option.isSome_iff_ne_none] using hnext, rfl, h⟩

theorem returnTo_spec {index : UInt16} {accessed : Nat → Bool} {jsr : Nat} {site : CallSite} (hp : setup.Prepared code)
    (hwf : s.WellFormed setup) (hframe : frame.Fits setup) (hsite : s.calls.get? jsr = some site)
    (h : returnTo setup i index entry frame accessed s (jsr, site) = .ok t) :
    s.Step t ∧ t.WellFormed setup ∧ t.calls = s.calls ∧ t.jsrRets = s.jsrRets.insert jsr i.position ∧
      ReturnedTo setup t i.position index.toNat frame accessed jsr site := by
  obtain ⟨hany, caller, registry, hcaller, -, hcharged, hmerge⟩ := returnTo_eq_ok h
  have hsame : ∀ other, s.jsrRets.get? jsr = some other → other = i.position := by
    intro other hother
    simpa [hother] using hany
  obtain ⟨hfits, index', i', hi', hposition', hflow'⟩ := hwf.calls jsr site hsite
  -- the place behind the call is a head, because a `jsr` stands in front of it
  have hhead : setup.IsHead caller.next := by
    have hstart := hp.tiles.startingAt?_eq_some_iff.mpr ⟨hposition', index', hi'⟩
    obtain rfl := Option.some.inj (hstart.symm.trans hcaller)
    exact hp.continuations index' i' _ hi' hflow'
  have hbound : jsr < s.jsrRets.bound := by
    have hlt := PositionMap.lt_bound_of_get? hsite
    rw [hwf.sized.calls] at hlt
    rw [hwf.sized.jsrRets]
    exact hlt
  have hwf₁ : { s with jsrRets := s.jsrRets.insert jsr i.position }.WellFormed setup :=
    hwf.congr rfl rfl rfl (PositionMap.bound_insert ..) rfl rfl rfl
  have hregistry : s.registry.Grows registry := hcharged ▸ Registry.grows_charge _ _ _
  have hstep₁ := (step_bind hsame).trans
    (@step_registry { s with jsrRets := s.jsrRets.insert jsr i.position } _ hregistry)
  obtain ⟨hstep, hwf', hdelivered⟩ := mergeInto_spec ((hwf₁.registry registry).note _)
    (fits_continuationFrame hfits hframe index.toNat accessed) hhead hmerge
  have hstep₂ := (step_note _ setup _).trans hstep
  refine ⟨hstep₁.trans hstep₂, hwf', ?_, ?_, hstep₂.jsrRets jsr i.position ?_, caller, hcaller, hdelivered⟩
  · rw [mergeInto_eq hmerge]
    exact calls_note _ setup _
  · rw [mergeInto_eq hmerge, note_eq]
  · exact PositionMap.get?_insert_self _ hbound

/-- What is known after a `ret` was looked at with a frame. -/
structure Left (setup : Setup) (s : Session) (i : Instruction) (index : UInt16) (frame : Frame) (entry : Nat) :
    Prop where
  address : frame.locals[index.toNat]? = some (.returnAddress entry)
  popped : ∃ popped rest, frame.nesting.leaveThrough entry = .ok (popped, rest) ∧
    s.framesPopped.get? i.position = some popped
  registered : ∃ sub, s.registry.get? entry = some sub ∧ i.position ∈ sub.retInstructions

theorem Left.mono {index : UInt16} (h : Left setup s i index frame entry) (hgrows : s.Learns t) :
    Left setup t i index frame entry where
  address := h.address
  popped := by
    obtain ⟨popped, rest, hleave, hpopped⟩ := h.popped
    exact ⟨popped, rest, hleave, hgrows.framesPopped _ _ hpopped⟩
  registered := by
    obtain ⟨sub, hsub, hret⟩ := h.registered
    obtain ⟨sub', hsub', hgrows'⟩ := hgrows.registry entry sub hsub
    exact ⟨sub', hsub', hgrows'.retInstructions hret⟩

/-- A return stays done while what is known grows, or it has to be done again. -/
theorem Returned.mono {index : UInt16} {seen : Nat → Bool}
    (h : Returned setup s i.position index.toNat entry frame seen) (hleft : Left setup s i index frame entry)
    (hgrows : s.Learns t) : i.position ∈ t.worklist ∨ Returned setup t i.position index.toNat entry frame seen := by
  obtain ⟨sub, hsub, hret⟩ := hleft.registered
  by_cases hwork : i.position ∈ t.worklist
  · exact Or.inl hwork
  · right
    refine ⟨?_, ?_⟩
    · intro k hk
      obtain ⟨sub₁, hsub₁, haccessed⟩ := h.accessed k hk
      obtain ⟨sub₂, hsub₂, hgrows'⟩ := hgrows.registry entry sub₁ hsub₁
      exact ⟨sub₂, hsub₂, hgrows'.accessed haccessed⟩
    · intro jsr site hsite hentry
      rcases hgrows.called jsr site hsite with hold | hrets
      · exact (h.calls jsr site hold hentry).mono hgrows
      · rw [hentry] at hrets
        exact absurd (hrets sub hsub hret) hwork

theorem step_popped {popped : Nat} (hsame : ∀ other, s.framesPopped.get? position = some other → other = popped) :
    s.Step { s with framesPopped := s.framesPopped.insert position popped } := by
  refine ⟨{ Grows.refl s with framesPopped := ?_ }, rfl, rfl⟩
  intro p other hother
  by_cases hp : position = p
  · subst hp
    rw [hsame other hother]
    exact PositionMap.get?_insert_self popped (PositionMap.lt_bound_of_get? hother)
  · exact (PositionMap.get?_insert_ne s.framesPopped popped hp).trans hother

/-- Calls that are bound anew are bound to a `ret` of the subroutine that they call. -/
def BindsTo (s t : Session) (ret entry : Nat) : Prop :=
  ∀ jsr other, t.jsrRets.get? jsr = some other → s.jsrRets.get? jsr = some other ∨
    other = ret ∧ ∃ site, t.calls.get? jsr = some site ∧ site.entry = entry

/-- Returning to all calls of a subroutine, one after the other. -/
theorem returnToAll_spec {index : UInt16} {accessed : Nat → Bool} (hp : setup.Prepared code) (hwf : s.WellFormed setup)
    (hframe : frame.Fits setup) (h : (s.calls.toList.filter fun call => call.2.entry = entry).foldlM
      (returnTo setup i index entry frame accessed) s = .ok t) :
    s.Step t ∧ t.WellFormed setup ∧ s.BindsTo t i.position entry ∧
      ∀ jsr site, t.calls.get? jsr = some site → site.entry = entry →
        ReturnedTo setup t i.position index.toNat frame accessed jsr site := by
  have hspec := foldlM_spec (G := Step) (P := fun u => u.WellFormed setup ∧ u.calls = s.calls ∧ s.BindsTo u i.position entry)
    (Q := fun u call => ReturnedTo setup u i.position index.toNat frame accessed call.1 call.2)
    Step.refl Step.trans (by intro u u' call hstep hreturned; exact hreturned.mono hstep.toLearns)
    ?_ ⟨hwf, rfl, fun _ _ => Or.inl⟩ h
  · obtain ⟨hstep, ⟨hwf', hcalls, hbinds⟩, hreturned⟩ := hspec
    refine ⟨hstep, hwf', hbinds, ?_⟩
    intro jsr site hsite hentry
    rw [hcalls] at hsite
    exact hreturned (jsr, site) (List.mem_filter.mpr ⟨PositionMap.mem_toList.mpr hsite, by simpa using hentry⟩)
  · rintro u ⟨jsr, site⟩ u' hmem ⟨hwfu, hcallsu, hbinds⟩ hreturn
    obtain ⟨hmem, hentry⟩ := List.mem_filter.mp hmem
    have hsite : u.calls.get? jsr = some site := by
      rw [hcallsu]
      exact PositionMap.mem_toList.mp hmem
    obtain ⟨hstep, hwf', hcalls', hbound, hreturned⟩ := returnTo_spec hp hwfu hframe hsite hreturn
    refine ⟨hstep, ⟨hwf', hcalls'.trans hcallsu, ?_⟩, hreturned⟩
    intro p other hother
    rw [hcalls']
    rw [hbound, PositionMap.get?_insert] at hother
    split at hother
    · rename_i hp
      obtain rfl := Option.some.inj hother
      refine Or.inr ⟨rfl, site, ?_, of_decide_eq_true hentry⟩
      rw [← hp.1]
      exact hsite
    · exact hbinds p other hother

/-- What a `ret` has checked and does, if it goes through. -/
theorem interpretRet_eq_ok {index : UInt16} (h : s.interpretRet setup i index frame = .ok t) :
    ∃ entry popped outer sub registry, frame.locals[index.toNat]? = some (.returnAddress entry) ∧
      frame.nesting.leaveThrough entry = .ok (popped, outer) ∧
      (s.framesPopped.get? i.position).any (· ≠ popped) = false ∧ s.registry.get? entry = some sub ∧
      registry = (s.registry.modify entry fun r => r.addRetInstruction i.position) ∧
      (s.calls.toList.filter fun call => call.2.entry = entry).foldlM
        (returnTo setup i index entry frame ((PositionSet.empty frame.locals.length).insertAll sub.accessed).contains)
        { s with framesPopped := s.framesPopped.insert i.position popped, registry } = .ok t := by
  unfold interpretRet at h
  split at h
  · simp [reject] at h
  · rename_i entry hlocal
    split at h
    · simp at h
    · rename_i popped outer hleave
      split at h
      · simp [reject] at h
      · rename_i hany
        split at h
        · simp [reject] at h
        · rename_i sub hsub
          exact ⟨entry, popped, outer, sub, _, hlocal, require_eq_ok.mp hleave, by simpa using hany, hsub, rfl, h⟩
  · simp [reject] at h

theorem interpretRet_spec {index : UInt16} (hp : setup.Prepared code) (hwf : s.WellFormed setup)
    (hframe : frame.Fits setup) (hposition : i.position < setup.body.codeLength)
    (h : s.interpretRet setup i index frame = .ok t) :
    s.Step t ∧ t.WellFormed setup ∧ ∃ entry sub, s.registry.get? entry = some sub ∧ Left setup t i index frame entry ∧
      Returned setup t i.position index.toNat entry frame sub.isAccessed ∧ s.BindsTo t i.position entry := by
  obtain ⟨entry, popped, rest, sub, registry, hlocal, hleave, hany, hsub, rfl, hreturn⟩ := interpretRet_eq_ok h
  have hsame : ∀ other, s.framesPopped.get? i.position = some other → other = popped := by
    intro other hother
    simpa [hother] using hany
  have hregistry : s.registry.Grows (s.registry.modify entry fun r => r.addRetInstruction i.position) :=
    Registry.grows_modify _ fun sub => sub.grows_addRetInstruction i.position
  have hstep₁ := (step_popped hsame).trans
    (@step_registry { s with framesPopped := s.framesPopped.insert i.position popped } _ hregistry)
  have hwf₁ := (hwf.congr (t := { s with framesPopped := s.framesPopped.insert i.position popped }) rfl rfl rfl
    rfl (PositionMap.bound_insert ..) rfl rfl).registry (s.registry.modify entry fun r => r.addRetInstruction i.position)
  obtain ⟨hstep₂, hwf', hbinds, hreturned⟩ := returnToAll_spec hp hwf₁ hframe hreturn
  refine ⟨hstep₁.trans hstep₂, hwf', entry, sub, hsub, ⟨hlocal, ⟨popped, rest, hleave, ?_⟩, ?_⟩, ⟨?_, ?_⟩, hbinds⟩
  · refine hstep₂.framesPopped _ _ (PositionMap.get?_insert_self popped ?_)
    rw [hwf.sized.framesPopped]
    exact hposition
  · obtain ⟨sub', hsub', hgrows'⟩ := hstep₂.registry entry _
      (Registry.get?_modify_self (f := fun r => r.addRetInstruction i.position) (fun _ => rfl) hsub)
    exact ⟨sub', hsub', hgrows'.retInstructions (Subroutine.mem_addNew.mpr (Or.inl rfl))⟩
  · intro k hk
    obtain ⟨sub', hsub', hgrows'⟩ := (hstep₁.trans hstep₂).registry entry sub hsub
    exact ⟨sub', hsub', hgrows'.accessed (List.contains_iff_mem.mp hk)⟩
  · intro jsr site hsite hentry
    obtain ⟨hbound, caller, hcaller, hdelivered⟩ := hreturned jsr site hsite hentry
    refine ⟨hbound, caller, hcaller, ?_⟩
    unfold continuationFrame
    rw [returnedFrame_congr site.frame index.toNat fun k => isAccessed_eq_contains sub]
    exact hdelivered

end Session

end Bytecode
