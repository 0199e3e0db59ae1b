import Bytecode.Proofs.Accesses
import Bytecode.Proofs.Closure

/-!
# Accesses inside of nested calls

Over the whole analysis, a subroutine is noted to access exactly the locals that were charged to it at some look.  A
subroutine that calls another is charged with the accesses of that one as far as it is active at the looks there, and
merging can lose it: of nestings that differ in depth the shallower one stays.

* `Inference.Lawful`, `Inference.Passes.tracked`: a property of nestings that merging and calls keep holds of all
  nestings that are met;
* `Method.Accesses`, `Settled.accessed_iff`: what is charged to a subroutine is what is noted at the end;
* `Nesting.Encloses`: a subroutine is active only inside of another;
* `accesses_of_nested_call`: accesses of a subroutine that is called from inside of another.
-/

namespace Bytecode

/-! ## What the whole analysis charges -/

namespace Inference

variable {setup : Setup} {code : List UInt8} {entry frame : Frame} {look : Option (Nat × Frame)} {s t : Session}
  {index : Nat} {i : Instruction} {next : Option Frame} {Q : Nesting → Prop}

/-- A property of nestings that merging keeps, and that a call keeps at every look on the way. -/
structure Lawful (setup : Setup) (entry : Frame) (Q : Nesting → Prop) : Prop where
  merge : ∀ n other : Nesting, Q n → Q other → Q (n.merge other)
  nil : Q []
  call : ∀ (index : Nat) (i : Instruction) (target : Nat) (frame : Frame) (u : Session),
    setup.body.get? index = some i → i.flow = .jsr target → Passes setup entry (some (index, frame)) u →
      Q frame.nesting → Q (frame.nesting ++ [target])

theorem lawful_true (setup : Setup) (entry : Frame) : Lawful setup entry fun _ => True where
  merge _ _ _ _ := trivial
  nil := trivial
  call _ _ _ _ _ _ _ _ _ := trivial

theorem Lawful.tracks_start (h : Lawful setup entry Q) :
    (Session.start setup.body.codeLength setup.method.code.maxLocals.toNat).Tracks setup.maxLocals Q where
  merge := h.merge
  sized := ⟨rfl, by intro callee sub hsub; simp [Session.start, Registry.empty, Registry.get?] at hsub⟩
  states := by simp [Session.start]
  calls := by simp [Session.start]
  retFrames := by simp [Session.start]

/-- The session, and the frame that it is about to look with, know their subroutines. -/
def Tracked (setup : Setup) (Q : Nesting → Prop) (look : Option (Nat × Frame)) (s : Session) : Prop :=
  s.Tracks setup.maxLocals Q ∧ ∀ index frame, look = some (index, frame) → frame.nesting.Admitted Q s.registry

/-- A look leaves subroutines that are known, and adds what it charges. -/
theorem Tracked.adds (hp : setup.Prepared code) (hentry : entry.Fits setup) (hlaw : Lawful setup entry Q)
    (hpasses : Passes setup entry (some (index, frame)) s) (h : Tracked setup Q (some (index, frame)) s)
    (hi : setup.body.get? index = some i) (hone : s.interpretOne setup i frame = .ok (t, next)) :
    t.Tracks setup.maxLocals Q ∧ s.registry.Adds setup.maxLocals (s.ChargesTo i frame) t.registry ∧
      ∀ g, next = some g → g.nesting.Admitted Q t.registry := by
  have hframe := h.2 index frame rfl
  have henter : ∀ target, i.flow = .jsr target → Q (frame.nesting ++ [target]) := by
    intro target hflow
    exact hlaw.call index i target frame s hi hflow hpasses hframe.2
  obtain ⟨htracks, hadds⟩ := Session.interpretOne_adds h.1 hframe henter hone
  refine ⟨htracks, hadds, ?_⟩
  rintro g rfl
  obtain ⟨-, hnext⟩ := hpasses.looksAt hp hentry hi hone
  rw [(Instruction.onward_effect Exec.sameShape_effect hnext.symm).2]
  exact hframe.mono hadds.grows

theorem Passes.tracked (hp : setup.Prepared code) (hentry : entry.Fits setup) (hnesting : entry.nesting = [])
    (hlaw : Lawful setup entry Q) (h : Passes setup entry look s) : Tracked setup Q look s := by
  induction h with
  | enter h =>
    refine ⟨Session.mergeInto_tracks hlaw.tracks_start ?_ h, by simp⟩
    rw [hnesting]
    exact ⟨by simp [Nesting.Known], hlaw.nil⟩
  | @state s position index rest st _ hwork hst hindex ih =>
    have hknown := ih.1.states position st hst
    have hpopped : { s with worklist := rest }.Tracks setup.maxLocals Q := ih.1.congr rfl rfl rfl rfl
    refine ⟨hpopped.insertState hknown, ?_⟩
    intro index' frame' heq
    obtain ⟨-, rfl⟩ := Prod.mk.inj (Option.some.inj heq)
    exact hknown
  | @ret s position index rest frame _ hwork hst hframe hindex ih =>
    refine ⟨ih.1.congr rfl rfl rfl rfl, ?_⟩
    intro index' frame' heq
    obtain ⟨-, rfl⟩ := Prod.mk.inj (Option.some.inj heq)
    exact ih.1.retFrames position frame hframe
  | nothing _ _ _ _ ih => exact ⟨ih.1.congr rfl rfl rfl rfl, by simp⟩
  | left hpasses hi hone ih => exact ⟨(ih.adds hp hentry hlaw hpasses hi hone).1, by simp⟩
  | met hpasses hi hone _ _ hmerge ih =>
    obtain ⟨htracks, -, hnext⟩ := ih.adds hp hentry hlaw hpasses hi hone
    exact ⟨Session.mergeInto_tracks htracks (hnext _ rfl) hmerge, by simp⟩
  | on hpasses hi hone _ _ ih =>
    obtain ⟨htracks, -, hnext⟩ := ih.adds hp hentry hlaw hpasses hi hone
    refine ⟨htracks, ?_⟩
    intro index' frame' heq
    obtain ⟨-, rfl⟩ := Prod.mk.inj (Option.some.inj heq)
    exact hnext _ rfl

/-- A look adds to the accesses exactly what it charges. -/
theorem Passes.adds (hp : setup.Prepared code) (hentry : entry.Fits setup) (hnesting : entry.nesting = [])
    (h : Passes setup entry (some (index, frame)) s) (hi : setup.body.get? index = some i)
    (hone : s.interpretOne setup i frame = .ok (t, next)) :
    s.registry.Adds setup.maxLocals (s.ChargesTo i frame) t.registry := by
  have hlaw := lawful_true setup entry
  exact ((h.tracked hp hentry hnesting hlaw).adds hp hentry hlaw h hi hone).2.1

/-- Nestings that are charged have the property. -/
theorem Passes.lawful_of_charges (hp : setup.Prepared code) (hentry : entry.Fits setup) (hnesting : entry.nesting = [])
    (hlaw : Lawful setup entry Q) (h : Passes setup entry (some (index, frame)) s)
    (hi : setup.body.get? index = some i) {active : Nesting} {slots : List Nat} (hcharges : s.Charges i frame active slots) :
    Q active := by
  obtain ⟨htracks, hlook⟩ := h.tracked hp hentry hnesting hlaw
  have hframe := (hlook index frame rfl).2
  cases hcharges with
  | plain hflow => exact hframe
  | call hflow => exact hlaw.call index i _ frame s hi hflow h hframe
  | ret hflow haddress hsub hsite => exact (htracks.calls _ _ hsite).2

/-- An access of a local that there is was charged to a subroutine at a look on the way. -/
def Charged (setup : Setup) (entry : Frame) (callee slot : Nat) : Prop :=
  slot < setup.maxLocals ∧ ∃ index frame i u, setup.body.get? index = some i ∧
    Passes setup entry (some (index, frame)) u ∧ u.ChargesTo i frame callee slot

/-- Every access that is noted on the way was charged. -/
theorem Passes.charged {callee slot : Nat} (hp : setup.Prepared code) (hentry : entry.Fits setup)
    (hnesting : entry.nesting = []) (h : Passes setup entry look s) :
    s.registry.Marks callee slot → Charged setup entry callee slot := by
  refine h.noted (P := fun r _ => r.Marks callee slot → Charged setup entry callee slot) ?_ ?_
  · rintro m - ⟨sub, hsub, -⟩
    simp [Registry.empty, Registry.get?] at hsub
  · intro index i frame s t next hpasses hi hone ih hmark
    -- it was noted before the look, or is charged by it
    rcases ((hpasses.adds hp hentry hnesting hi hone).marks callee slot).mp hmark with hold | ⟨hlt, hnew⟩
    · exact ih hold
    · exact ⟨hlt, index, frame, i, s, hi, hpasses, hnew⟩

/-- What was charged on the way is noted at the end. -/
theorem Charged.marks {callee slot : Nat} (hp : setup.Prepared code) (hentry : entry.Fits setup)
    (hnesting : entry.nesting = []) (hanalyse : analyse setup entry = .ok s) (h : Charged setup entry callee slot) :
    s.registry.Marks callee slot := by
  obtain ⟨hlt, index, frame, i, u, hi, hpasses, hcharges⟩ := h
  obtain ⟨t, next, hone, hremembers⟩ := hpasses.goesThrough hp hentry hanalyse hi
  -- the look notes the access, and what is noted stays
  have hnoted := ((hpasses.adds hp hentry hnesting hi hone).marks callee slot).mpr (Or.inr ⟨hlt, hcharges⟩)
  exact hnoted.mono hremembers.registry

end Inference

namespace Method

/-- At one of its looks, the analysis of a method charges the accesses of some locals to the subroutines of a
nesting. -/
def Charges (method : Method) (active : Nesting) (slots : List Nat) : Prop :=
  ∃ body index i frame s, Body.decode method.code.bytes = .ok body ∧ body.get? index = some i ∧
    method.Looks index frame s ∧ s.Charges i frame active slots

/-- The analysis of a method charges the access of a local, which the method has, to a subroutine. -/
def Accesses (method : Method) (entry slot : Nat) : Prop :=
  slot < method.code.maxLocals.toNat ∧ ∃ active slots, method.Charges active slots ∧ entry ∈ active ∧ slot ∈ slots

/-- There is only one analysis of a method, and the looks that charge are on its way. -/
theorem charges_iff {method : Method} {setup : Setup} {start : Frame} {active : Nesting} {slots : List Nat}
    (hprepare : Inference.prepare false method = .ok (setup, start)) :
    method.Charges active slots ↔ ∃ index frame i u, setup.body.get? index = some i ∧
      Inference.Passes setup start (some (index, frame)) u ∧ u.Charges i frame active slots := by
  obtain ⟨body, handlers, hdecode, -, -, -, hsetup⟩ := Inference.prepare_eq_ok.mp hprepare
  have hbody : setup.body = body := by rw [hsetup]
  constructor
  · rintro ⟨body', index, i, frame, u, hdecode', hi, ⟨setup', start', hprepare', hpasses⟩, hcharges⟩
    obtain ⟨rfl, rfl⟩ := Prod.mk.inj (Except.ok.inj (hprepare.symm.trans hprepare'))
    obtain rfl := Except.ok.inj (hdecode.symm.trans hdecode')
    rw [← hbody] at hi
    exact ⟨index, frame, i, u, hi, hpasses, hcharges⟩
  · rintro ⟨index, frame, i, u, hi, hpasses, hcharges⟩
    rw [hbody] at hi
    exact ⟨body, index, i, frame, u, hdecode, hi, ⟨setup, start, hprepare, hpasses⟩, hcharges⟩

end Method

namespace Settled

variable {method : Method} {v : Verified} {setup : Setup} {s : Session} {index : Nat} {frame : Frame}

/-- The analysis starts with no subroutine active. -/
theorem entered (h : Settled method v setup s) : ∃ start, start.Fits setup ∧ start.nesting = [] ∧
    Inference.prepare false method = .ok (setup, start) ∧ Inference.analyse setup start = .ok s := by
  obtain ⟨start, -, hfits, hprepare, hanalyse⟩ := h.explores
  obtain ⟨-, -, -, -, -, hentry, -⟩ := Inference.prepare_eq_ok.mp hprepare
  exact ⟨start, hfits, Frame.nesting_entry hentry, hprepare, hanalyse⟩

/-- The accesses of a subroutine at the end are those that were charged to it. -/
theorem accessed_iff (h : Settled method v setup s) {entry slot : Nat} {sub : Subroutine}
    (hsub : v.subroutines.get? entry = some sub) : slot ∈ sub.accessed ↔ method.Accesses entry slot := by
  obtain ⟨start, hfits, hnesting, hprepare, hanalyse⟩ := h.entered
  have hmax : setup.maxLocals = method.code.maxLocals.toNat := by rw [Setup.maxLocals, h.method_eq]
  rw [h.subroutines_eq] at hsub
  constructor
  · intro hslot
    obtain ⟨hlt, index, frame, i, u, hi, hpasses, active, slots, hcharges, hmem⟩ :=
      (Inference.passes_analyse h.prepared hanalyse).charged h.prepared hfits hnesting ⟨sub, hsub, hslot⟩
    exact ⟨hmax ▸ hlt, active, slots, (Method.charges_iff hprepare).mpr ⟨index, frame, i, u, hi, hpasses, hcharges⟩, hmem⟩
  · rintro ⟨hlt, active, slots, hcharges, hmem⟩
    obtain ⟨index, frame, i, u, hi, hpasses, hcharges⟩ := (Method.charges_iff hprepare).mp hcharges
    have hcharged : Inference.Charged setup start entry slot :=
      ⟨hmax ▸ hlt, index, frame, i, u, hi, hpasses, active, slots, hcharges, hmem⟩
    obtain ⟨sub', hsub', hslot⟩ := hcharged.marks h.prepared hfits hnesting hanalyse
    obtain rfl := Option.some.inj (hsub.symm.trans hsub')
    exact hslot

/-- Every instruction that control comes to was looked at with the frame right before it. -/
theorem passes (h : Settled method v setup s) {start : Frame} (hfits : start.Fits setup)
    (hanalyse : Inference.analyse setup start = .ok s) (hframe : v.frameBefore? method index = some frame) :
    ∃ u, Inference.Passes setup start (some (index, frame)) u := by
  -- the induction is on the run from the last state in front
  induction h.replays_iff.mpr hframe with
  | @state index i st hi hst =>
    rw [h.states_eq] at hst
    rcases (Inference.passes_analyse h.prepared hanalyse).seen h.prepared hfits i.position st hst with
      hmem | ⟨index', u, hindex, hu⟩
    · rw [h.idle] at hmem
      simp at hmem
    · have hfound := h.prepared.tiles.indexOf?_eq_some_iff.mpr ⟨i, h.get?_setup hi, rfl⟩
      obtain rfl := Option.some.inj (hfound.symm.trans hindex)
      exact ⟨u, hu⟩
  | @on index i i' f g hfront hi hfalls hresult hi' hmerge ih =>
    obtain ⟨u, hu⟩ := ih (h.replays_iff.mp hfront)
    obtain ⟨t, next, hone, -⟩ := hu.goesThrough h.prepared hfits hanalyse (h.get?_setup hi)
    obtain ⟨-, hnext⟩ := hu.looksAt h.prepared hfits (h.get?_setup hi) hone
    have honward : i.onward (setup.context i.position) f = some g := by
      rw [Session.onward_eq_some_iff, h.placeOf_eq]
      exact ⟨hfalls, hresult⟩
    obtain rfl : next = some g := hnext.trans honward
    -- the next place is no merge point, so the same look goes on with it
    have hmerged : t.isMerged setup i'.position = false := by
      rw [← Bool.not_eq_true, ← hu.isHead_iff h.prepared hfits (h.get?_setup hi) hone, h.isHead_succ_iff hi hi']
      exact hmerge
    exact ⟨t, .on hu (h.get?_setup hi) hone (h.get?_setup hi') hmerged⟩

/-- Subroutines that are active somewhere are registered. -/
theorem registered_of_active (h : Settled method v setup s) {i : Instruction} {nesting : Nesting} {outer : Nat}
    (hi : v.body.get? index = some i) (hactive : v.activeAt? index = some nesting) (houter : outer ∈ nesting) :
    ∃ sub, v.subroutines.get? outer = some sub := by
  obtain ⟨start, hfits, hnesting, -, hanalyse⟩ := h.entered
  rw [h.activeAt?_eq hi] at hactive
  obtain ⟨frame, hframe, rfl⟩ := Option.map_eq_some_iff.mp hactive
  obtain ⟨u, hu⟩ := h.passes hfits hanalyse hframe
  -- they were registered when the instruction was looked at, and stay so
  obtain ⟨-, hknown⟩ := hu.tracked h.prepared hfits hnesting (Inference.lawful_true setup start)
  rw [h.subroutines_eq]
  have hstays := (hu.remembers h.prepared hfits hanalyse).registry
  exact Option.isSome_iff_exists.mp ((hknown index frame rfl).1.mono hstays outer houter)

end Settled

/-! ## Calls from inside of a subroutine -/

namespace Nesting

/-- Wherever the one subroutine is active, the other is active around it. -/
def Encloses (outer inner : Nat) (n : Nesting) : Prop := ∀ front rest, n = front ++ inner :: rest → outer ∈ front

variable {outer inner : Nat} {n other : Nesting}

theorem Encloses.mem (h : n.Encloses outer inner) (hinner : inner ∈ n) : outer ∈ n := by
  obtain ⟨front, rest, rfl⟩ := List.append_of_mem hinner
  exact List.mem_append_left _ (h front rest rfl)

theorem Encloses.merge (h : n.Encloses outer inner) (hother : other.Encloses outer inner) :
    (n.merge other).Encloses outer inner := by
  unfold Nesting.merge
  split
  · exact hother
  · split
    · -- the part that is shared is a front of `n`
      intro front rest hshared
      obtain ⟨tail, htail⟩ := shared_isFront n other
      apply h front (rest ++ tail)
      rw [← htail, hshared]
      simp
    · exact h

theorem Encloses.call {target : Nat} (h : n.Encloses outer inner) (houter : target = inner → outer ∈ n) :
    (n ++ [target]).Encloses outer inner := by
  intro front rest hsplit
  rcases List.eq_nil_or_concat rest with rfl | ⟨rest', last, rfl⟩
  · -- the call is one of the inner subroutine itself
    obtain ⟨rfl, htarget⟩ := List.append_inj' hsplit rfl
    exact houter (List.singleton_inj.mp htarget)
  · have hfront : n ++ [target] = (front ++ inner :: rest') ++ [last] := by simpa using hsplit
    obtain ⟨hn, -⟩ := List.append_inj' hfront rfl
    exact h front rest' hn

end Nesting

namespace Settled

variable {method : Method} {v : Verified} {setup : Setup} {s : Session} {inner outer : Nat}

/-- If a subroutine is called only while another is active, that one is active around it wherever accesses are
charged. -/
theorem encloses_of_charges (h : Settled method v setup s) {active : Nesting} {slots : List Nat}
    (hcalls : ∀ index i frame u, v.body.get? index = some i → i.flow = .jsr inner → method.Looks index frame u →
      outer ∈ frame.nesting) (hcharges : method.Charges active slots) : active.Encloses outer inner := by
  obtain ⟨start, hfits, hnesting, hprepare, -⟩ := h.entered
  have hlaw : Inference.Lawful setup start (Nesting.Encloses outer inner) := by
    refine ⟨fun n other hn hother => hn.merge hother, ?_, ?_⟩
    · intro front rest hsplit
      simp at hsplit
    · intro index i target frame u hi hflow hpasses hframe
      apply hframe.call
      rintro rfl
      rw [← h.body_eq] at hi
      exact hcalls index i frame u hi hflow ⟨setup, start, hprepare, hpasses⟩
  obtain ⟨index, frame, i, u, hi, hpasses, hcharges⟩ := (Method.charges_iff hprepare).mp hcharges
  exact hpasses.lawful_of_charges h.prepared hfits hnesting hlaw hi hcharges

/-- A subroutine that is called somewhere is registered. -/
theorem registered_of_call (h : Settled method v setup s) {index : Nat} {jsr : Instruction} {nesting : Nesting}
    (hjsr : v.body.get? index = some jsr) (hcall : jsr.flow = .jsr inner) (hactive : v.activeAt? index = some nesting) :
    ∃ sub, v.subroutines.get? inner = some sub := by
  rw [h.activeAt?_eq hjsr] at hactive
  obtain ⟨frame, hframe, -⟩ := Option.map_eq_some_iff.mp hactive
  have hflow := (h.handled hjsr hframe).flow
  unfold Session.FlowHandled at hflow
  simp only [hcall] at hflow
  obtain ⟨sub, hsub, -⟩ := hflow.registered
  rw [h.subroutines_eq]
  exact ⟨sub, hsub⟩

/-- An operation at which a subroutine is active at the end is charged to it. -/
theorem charges_of_active (h : Settled method v setup s) {index : Nat} {i : Instruction} {op : Op} {active : Nesting}
    (hi : v.body.get? index = some i) (hflow : i.flow = .plain op) (hactive : v.activeAt? index = some active) :
    method.Charges active op.slots := by
  obtain ⟨start, hfits, -, hprepare, hanalyse⟩ := h.entered
  rw [h.activeAt?_eq hi] at hactive
  obtain ⟨frame, hframe, rfl⟩ := Option.map_eq_some_iff.mp hactive
  obtain ⟨u, hu⟩ := h.passes hfits hanalyse hframe
  exact (Method.charges_iff hprepare).mpr ⟨index, frame, i, u, h.get?_setup hi, hu, .plain hflow⟩

end Settled

/-- **Accesses of a subroutine that is called from inside of another.**  Both note exactly what was charged to them.
So the outer one has all accesses of the inner one if the inner one is called only while the outer one is active, at
every look of the analysis; and it always has those of the operations at which it is active at the end. -/
theorem accesses_of_nested_call {method : Method} {v : Verified} {index inner outer : Nat} {jsr : Instruction}
    {nesting : Nesting} (hfits : method.code.bytes.length < 2 ^ 64) (hverify : method.verify = .ok v)
    (hjsr : v.body.get? index = some jsr) (hcall : jsr.flow = .jsr inner) (hactive : v.activeAt? index = some nesting)
    (houter : outer ∈ nesting) :
    ∃ called caller, v.subroutines.get? inner = some called ∧ v.subroutines.get? outer = some caller ∧
      (∀ slot, slot ∈ called.accessed ↔ method.Accesses inner slot) ∧
      (∀ slot, slot ∈ caller.accessed ↔ method.Accesses outer slot) ∧
      ((∀ place i frame look, v.body.get? place = some i → i.flow = .jsr inner → method.Looks place frame look →
        outer ∈ frame.nesting) → called.accessed ⊆ caller.accessed) ∧
      ∀ place i op active, v.body.get? place = some i → i.flow = .plain op → v.activeAt? place = some active →
        outer ∈ active → ∀ slot ∈ op.slots, slot < method.code.maxLocals.toNat → slot ∈ caller.accessed := by
  obtain ⟨setup, s, h⟩ := Method.settled hfits hverify
  obtain ⟨called, hcalled⟩ := h.registered_of_call hjsr hcall hactive
  obtain ⟨caller, hcaller⟩ := h.registered_of_active hjsr hactive houter
  refine ⟨called, caller, hcalled, hcaller, fun slot => h.accessed_iff hcalled, fun slot => h.accessed_iff hcaller, ?_, ?_⟩
  · intro hcalls slot hslot
    rw [h.accessed_iff hcalled] at hslot
    rw [h.accessed_iff hcaller]
    obtain ⟨hlt, active, slots, hcharges, hinner, hmem⟩ := hslot
    exact ⟨hlt, active, slots, hcharges, (h.encloses_of_charges hcalls hcharges).mem hinner, hmem⟩
  · intro place i op active hi hflow hplace hmem slot hslot hlt
    rw [h.accessed_iff hcaller]
    exact ⟨hlt, active, op.slots, h.charges_of_active hi hflow hplace, hmem, hslot⟩

/-- A subroutine that is called from the method and from another subroutine:

    0 jsr 15;  3 iconst_0;  4 istore_2;  5 jsr 9;  8 return;  9 astore_0;  10 jsr 15;  13 ret 0;  15 astore_1;
    16 fconst_0;  17 fstore_2;  18 ret 1
-/
def sharedCallee : Method :=
  Method.bare ⟨[], none⟩ 2 3
    [0xa8, 0x00, 0x0f, 0x03, 0x3d, 0xa8, 0x00, 0x04, 0xb1, 0x4b, 0xa8, 0x00, 0x05, 0xa9, 0x00, 0x4c, 0x0b, 0x45, 0xa9, 0x01]

/-- Subroutine 15 stores a `float` into local 2.  It is called from subroutine 9 as well, which is not charged with this
access, so behind the call of 9 the local still counts as the `int` that was there before. -/
theorem sharedCallee_uncharged :
    ∃ v jsr called caller st, sharedCallee.verify = .ok v ∧ v.body.get? 6 = some jsr ∧ jsr.flow = .jsr 15 ∧
      v.activeAt? 6 = some [9] ∧ v.subroutines.get? 15 = some called ∧ v.subroutines.get? 9 = some caller ∧
      called.accessed = [1, 2] ∧ caller.accessed = [0] ∧ sharedCallee.Accesses 15 2 ∧ ¬ sharedCallee.Accesses 9 2 ∧
      v.states.get? 8 = some st ∧ st.frame.locals[2]? = some .int := by
  obtain ⟨v, hverify, htest⟩ := @Method.exists_of_within sharedCallee 20
    (fun v => (v.body.get? 6).any (fun i => i.flow = .jsr 15) && v.activeAt? 6 = some [9] &&
      (v.subroutines.get? 15).any (fun sub => sub.accessed = [1, 2]) &&
      (v.subroutines.get? 9).any (fun sub => sub.accessed = [0]) &&
      (v.states.get? 8).any (fun st => st.frame.locals[2]? = some .int)) (by decide +kernel)
  simp only [Bool.and_eq_true, Option.any_eq_true, decide_eq_true_eq] at htest
  obtain ⟨⟨⟨⟨⟨jsr, hjsr, hcall⟩, hactive⟩, called, hcalled, hinner⟩, caller, hcaller, houter⟩, st, hst, hint⟩ := htest
  obtain ⟨called', caller', hcalled', hcaller', hcharged, hcharged', -⟩ :=
    accesses_of_nested_call (by decide) hverify hjsr hcall hactive (List.mem_singleton.mpr rfl)
  obtain rfl := Option.some.inj (hcalled.symm.trans hcalled')
  obtain rfl := Option.some.inj (hcaller.symm.trans hcaller')
  refine ⟨v, jsr, called, caller, st, hverify, hjsr, hcall, hactive, hcalled, hcaller, hinner, houter, ?_, ?_, hst, hint⟩
  · rw [← hcharged, hinner]
    decide
  · rw [← hcharged', houter]
    decide

end Bytecode
