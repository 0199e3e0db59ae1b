import Bytecode.Proofs.RegularSessions

/-!
# What passes into and out of subroutines

A call merges a frame into the place where the subroutine starts, and a `ret` merges one into the place behind each call.
Objects whose constructor has not run are made unusable in the locals of these frames.  On the stack they stay.

* `Session.Crosses`: the frames that a look at an instruction merges across the boundary of a subroutine;
* `Session.Crosses.someUninitialized_iff`: such a frame has an uninitialized object exactly if the stack has one;
* `Session.crosses_of_jsr`, `Session.crosses_of_ret`: a look that goes through merges a frame for the call, or for every
  call that is known;
* `Session.Crosses.state`: what this means for the state of the place.
-/

namespace Bytecode

/-- One of the types is that of an object whose constructor has not run. -/
def SomeUninitialized (ts : List VType) : Prop := ∃ t ∈ ts, t.isUninitialized = true

theorem Frame.not_someUninitialized_locals (f : Frame) : ¬ SomeUninitialized f.withoutUninitialized.locals := by
  rintro ⟨t, ht, huninitialized⟩
  obtain ⟨t', -, rfl⟩ := List.mem_map.mp ht
  by_cases h : t'.isUninitialized = true
  · rw [if_pos h] at huninitialized
    simp [VType.isUninitialized] at huninitialized
  · rw [if_neg h] at huninitialized
    exact h huninitialized

/-- Below an uninitialized object there is only itself. -/
theorem SomeUninitialized.of_le {ts us : List VType} (h : SomeUninitialized us) (hle : List.Forall₂ (· ≤ ·) ts us) :
    SomeUninitialized ts := by
  obtain ⟨u, hu, huninitialized⟩ := h
  obtain ⟨k, hk⟩ := List.mem_iff_getElem?.mp hu
  obtain ⟨t, ht, hle'⟩ := forall₂_getElem? hle hk
  obtain rfl := VType.eq_of_le_of_isUninitialized hle' huninitialized
  exact ⟨t, List.mem_of_getElem? ht, huninitialized⟩

/-- Above an uninitialized object there is only `top`. -/
theorem SomeUninitialized.of_ge {ts us : List VType} (h : SomeUninitialized ts) (hle : List.Forall₂ (· ≤ ·) ts us)
    (husable : ∀ u ∈ us, u ≠ .top) : SomeUninitialized us := by
  obtain ⟨t, ht, huninitialized⟩ := h
  obtain ⟨k, hk⟩ := List.mem_iff_getElem?.mp ht
  obtain ⟨u, hu, hle'⟩ := forall₂_getElem? hle.flip hk
  have hinitialized : t.isInitialized = false := by
    cases t <;> simp [VType.isUninitialized, VType.isInitialized] at huninitialized ⊢
  have hmem := List.mem_of_getElem? hu
  obtain rfl := (VType.eq_or_eq_top hle' hinitialized).resolve_right (husable u hmem)
  exact ⟨u, hmem, huninitialized⟩

namespace Session

variable {setup : Setup} {s t : Session} {i : Instruction} {frame g : Frame} {place : Nat}

/-! ## Frames that cross -/

/-- The locals that a subroutine has accessed, as a `ret` with this frame looks them up. -/
def accessedIn (frame : Frame) (sub : Subroutine) : Nat → Bool :=
  ((PositionSet.empty frame.locals.length).insertAll sub.accessed).contains

/-- The frames that are merged into or out of a subroutine while an instruction is looked at with a frame, and the places
that they are merged into. -/
inductive Crosses (setup : Setup) (s : Session) (i : Instruction) (frame : Frame) : Nat → Frame → Prop
  /-- A call merges a frame into the start of the subroutine. -/
  | enters {u t : Session} {callee : Nat} {isNew isChanged : Bool} {start : Frame} {registry : Registry}
      (hu : (s.looked setup i frame).mergeHandlers setup i.position frame = .ok u) (hflow : i.flow = .jsr callee)
      (hrecord : u.recordCall i.position callee frame = some (t, isNew, isChanged))
      (hstart : subroutineEntry setup callee frame (t.registered i callee).registry = .ok (start, registry)) :
      Crosses setup s i frame callee start
  /-- A `ret` has returned to the calls in front of this one, and merges a frame into the place behind it. -/
  | returns {u t : Session} {slot : UInt16} {callee popped jsr : Nat} {outer : Nesting} {sub : Subroutine}
      {front rest : List (Nat × CallSite)} {site : CallSite} {caller : Instruction} {returned : Frame} {registry : Registry}
      (hu : (s.looked setup i frame).mergeHandlers setup i.position frame = .ok u) (hflow : i.flow = .ret slot)
      (haddress : frame.locals[slot.toNat]? = some (.returnAddress callee))
      (hleave : frame.nesting.leaveThrough callee = .ok (popped, outer))
      (hpopped : (u.framesPopped.get? i.position).any (· ≠ popped) = false) (hsub : u.registry.get? callee = some sub)
      (hcalls : (u.calls.toList.filter fun call => call.2.entry = callee) = front ++ (jsr, site) :: rest)
      (hfront : front.foldlM (returnTo setup i slot callee frame (accessedIn frame sub))
        ({ u with retFrames := u.retFrames.insert i.position frame }.leaving i callee popped) = .ok t)
      (hbound : (t.jsrRets.get? jsr).any (· ≠ i.position) = false) (hcaller : setup.body.startingAt? jsr = some caller)
      (hnext : (setup.body.indexOf? caller.next).isSome = true)
      (hreturned : (returnedFrame site.frame frame slot.toNat (accessedIn frame sub)).killUninitialized t.registry =
        (returned, registry)) :
      Crosses setup s i frame caller.next returned

namespace Crosses

/-- No uninitialized object crosses in a local. -/
theorem locals (h : s.Crosses setup i frame place g) : ¬ SomeUninitialized g.locals := by
  cases h with
  | enters hu hflow hrecord hstart =>
    rw [(startFrame_eq_ok (subroutineEntry_spec hstart).1).1]
    exact frame.not_someUninitialized_locals
  | returns hu hflow haddress hleave hpopped hsub hcalls hfront hbound hcaller hnext hreturned =>
    obtain ⟨rfl, -⟩ := Prod.mk.inj hreturned
    exact Frame.not_someUninitialized_locals _

/-- The stack crosses as it is, below the return address of a call. -/
theorem stack (h : s.Crosses setup i frame place g) :
    (∃ callee, i.flow = .jsr callee ∧ g.stack = .returnAddress callee :: frame.stack) ∨
      (∃ slot, i.flow = .ret slot) ∧ g.stack = frame.stack := by
  cases h with
  | enters hu hflow hrecord hstart =>
    exact Or.inl ⟨_, hflow, (startFrame_eq_ok (subroutineEntry_spec hstart).1).2.1⟩
  | returns hu hflow haddress hleave hpopped hsub hcalls hfront hbound hcaller hnext hreturned =>
    obtain ⟨rfl, -⟩ := Prod.mk.inj hreturned
    exact Or.inr ⟨⟨_, hflow⟩, rfl⟩

theorem someUninitialized_stack (h : s.Crosses setup i frame place g) :
    SomeUninitialized g.stack ↔ SomeUninitialized frame.stack := by
  rcases h.stack with ⟨callee, -, hstack⟩ | ⟨-, hstack⟩
  · rw [hstack]
    simp [SomeUninitialized, VType.isUninitialized]
  · rw [hstack]

/-- The frame that crosses has an uninitialized object exactly if the stack has one. -/
theorem someUninitialized_iff (h : s.Crosses setup i frame place g) :
    SomeUninitialized (g.locals ++ g.stack) ↔ SomeUninitialized frame.stack := by
  rw [← h.someUninitialized_stack]
  constructor
  · rintro ⟨t, ht, huninitialized⟩
    rcases List.mem_append.mp ht with hlocal | hstack
    · exact absurd ⟨t, hlocal, huninitialized⟩ h.locals
    · exact ⟨t, hstack, huninitialized⟩
  · rintro ⟨t, hstack, huninitialized⟩
    exact ⟨t, List.mem_append_right _ hstack, huninitialized⟩

end Crosses

/-! ## Looks that go through -/

theorem crosses_of_jsr {callee : Nat} {next : Option Frame} (h : s.interpretOne setup i frame = .ok (t, next))
    (hflow : i.flow = .jsr callee) : ∃ start, startFrame setup callee frame = .ok start ∧
      s.Crosses setup i frame callee start := by
  obtain ⟨u, hu, hworks⟩ := interpretOne_eq_ok h
  obtain ⟨v, isNew, isChanged, start, registry, -, hrecord, hentry, -⟩ := interpretJsr_eq_ok (hworks.of_jsr hflow)
  exact ⟨start, (subroutineEntry_spec hentry).1, .enters hu hflow hrecord hentry⟩

/-- Returns to all of some calls come to each of them. -/
theorem foldlM_returnTo_split {slot : UInt16} {callee jsr : Nat} {accessed : Nat → Bool} {site : CallSite}
    {calls : List (Nat × CallSite)} (h : calls.foldlM (returnTo setup i slot callee frame accessed) s = .ok t)
    (hmem : (jsr, site) ∈ calls) : ∃ front rest u, calls = front ++ (jsr, site) :: rest ∧
      front.foldlM (returnTo setup i slot callee frame accessed) s = .ok u ∧
      (u.jsrRets.get? jsr).any (· ≠ i.position) = false ∧
      ∃ caller, setup.body.startingAt? jsr = some caller ∧ (setup.body.indexOf? caller.next).isSome = true := by
  obtain ⟨front, rest, rfl⟩ := List.append_of_mem hmem
  rw [List.foldlM_append, bind_eq_ok] at h
  obtain ⟨u, hfront, hrest⟩ := h
  rw [List.foldlM_cons, bind_eq_ok] at hrest
  obtain ⟨w, hreturn, -⟩ := hrest
  obtain ⟨hbound, caller, registry, hcaller, hnext, -⟩ := returnTo_eq_ok hreturn
  exact ⟨front, rest, u, rfl, hfront, hbound, caller, hcaller, hnext⟩

theorem crosses_of_ret {slot : UInt16} {next : Option Frame} (h : s.interpretOne setup i frame = .ok (t, next))
    (hflow : i.flow = .ret slot) : ∃ callee sub, frame.locals[slot.toNat]? = some (.returnAddress callee) ∧
      s.registry.get? callee = some sub ∧ t.calls = s.calls ∧
      ∀ jsr site, s.calls.get? jsr = some site → site.entry = callee → ∃ caller, setup.body.startingAt? jsr = some caller ∧
        s.Crosses setup i frame caller.next (continuationFrame site.frame frame slot.toNat (accessedIn frame sub)) := by
  obtain ⟨u, hu, hworks⟩ := interpretOne_eq_ok h
  have hsame : u.registry = s.registry ∧ u.calls = s.calls := by
    rw [mergeHandlers_eq hu, looked_eq]
    exact ⟨rfl, rfl⟩
  obtain ⟨callee, popped, outer, sub, registry, haddress, hleave, hpopped, hsub, rfl, hfold⟩ :=
    interpretRet_eq_ok (hworks.of_ret hflow)
  refine ⟨callee, sub, haddress, hsame.1 ▸ hsub, ?_, ?_⟩
  · refine (foldlM_keeps (P := fun v : Session => v.calls = u.calls) ?_ ?_ hfold).trans hsame.2
    · rintro v ⟨jsr, site⟩ v' - hv hreturn
      obtain ⟨-, caller, registry, -, -, -, hmerge⟩ := returnTo_eq_ok hreturn
      rw [mergeInto_eq hmerge, ← hv]
      exact calls_note _ setup _
    · rfl
  · intro jsr site hsite hcallee
    have hmem : (jsr, site) ∈ u.calls.toList.filter fun call => call.2.entry = callee :=
      List.mem_filter.mpr ⟨PositionMap.mem_toList.mpr (hsame.2 ▸ hsite), by simpa using hcallee⟩
    obtain ⟨front, rest, w, hcalls, hfront, hbound, caller, hcaller, hnext⟩ := foldlM_returnTo_split hfold hmem
    exact ⟨caller, hcaller,
      .returns hu hflow haddress hleave hpopped hsub hcalls hfront hbound hcaller hnext rfl⟩

/-! ## States at the boundary -/

/-- A state that a frame was merged into across a boundary has no uninitialized object in a local, and has one on the stack
exactly if the stack that crossed has one. -/
theorem Crosses.state {u : Session} {st : TypeState} (h : s.Crosses setup i frame place g) (hregular : u.Regular setup)
    (hvalues : setup.method.constants.GivesValues) (hdelivered : u.Delivered place g) (hst : u.states.get? place = some st) :
    ¬ SomeUninitialized st.frame.locals ∧ (SomeUninitialized st.frame.stack ↔ SomeUninitialized frame.stack) := by
  obtain ⟨st', hst', hbelow⟩ := hdelivered
  obtain rfl := Option.some.inj (hst.symm.trans hst')
  have hstack : List.Forall₂ (· ≤ ·) g.stack st.frame.stack := hbelow.stack.imp fun _ _ => And.left
  refine ⟨fun huninitialized => h.locals (huninitialized.of_le hbelow.locals), ?_⟩
  rw [← h.someUninitialized_stack]
  exact ⟨fun huninitialized => huninitialized.of_le hstack,
    fun huninitialized => huninitialized.of_ge hstack ((hregular _ (.state hst)).usable hvalues)⟩

end Session

/-- **Objects whose constructor has not run cross the boundary of a subroutine on the stack only.**  At every point of the
analysis of a method at which a call or a `ret` merges a frame across the boundary, the locals of that frame have no such
object, and its stack has one exactly if the stack in front of the instruction has one; so it is with the state of the
place from then on.  A call that goes through merges such a frame into its subroutine, and a `ret` one behind every call that is
known. -/
theorem boundary_clears_locals {recording : Bool} {method : Method} {setup : Setup} {entry frame : Frame}
    {pool : ConstantPool} {s : Session} {index : Nat} {i : Instruction}
    (hprepare : Inference.prepare recording method = .ok (setup, entry)) (hlength : method.code.bytes.length < 2 ^ 64)
    (hpool : method.constants = pool.resolver) (hlook : Inference.Passes setup entry (some (index, frame)) s)
    (hi : setup.body.get? index = some i) :
    (∀ place g, s.Crosses setup i frame place g →
      ¬ SomeUninitialized g.locals ∧ (SomeUninitialized (g.locals ++ g.stack) ↔ SomeUninitialized frame.stack) ∧
      ∀ look u st, Inference.Passes setup entry look u → u.Delivered place g → u.states.get? place = some st →
        ¬ SomeUninitialized st.frame.locals ∧ (SomeUninitialized st.frame.stack ↔ SomeUninitialized frame.stack)) ∧
    ∀ t next, s.interpretOne setup i frame = .ok (t, next) →
      (∀ callee, i.flow = .jsr callee → ∃ g, s.Crosses setup i frame callee g ∧ t.Delivered callee g) ∧
      ∀ slot, i.flow = .ret slot → ∃ callee, frame.locals[slot.toNat]? = some (.returnAddress callee) ∧
        ∀ jsr site, s.calls.get? jsr = some site → site.entry = callee →
          ∃ caller g, setup.body.startingAt? jsr = some caller ∧ s.Crosses setup i frame caller.next g ∧
            t.Delivered caller.next g := by
  obtain ⟨rfl, hp, -, -, hentry⟩ := Inference.prepare_spec hlength hprepare
  obtain ⟨hcaught, hregular⟩ := Inference.regular_of_prepare hprepare
  have hvalues : setup.method.constants.GivesValues := hpool ▸ pool.givesValues_resolver
  refine ⟨?_, ?_⟩
  · intro place g hcrosses
    refine ⟨hcrosses.locals, hcrosses.someUninitialized_iff, ?_⟩
    intro look u st hpasses hdelivered hst
    exact hcrosses.state (hpasses.regular hcaught hregular).1 hvalues hdelivered hst
  · intro t next hone
    obtain ⟨hwf, -, hfits, -⟩ := hlook.keeps hp (Frame.fits_entry hentry)
    obtain ⟨hlooks, -⟩ := Session.interpretOne_spec hp hwf hfits hi hone
    refine ⟨?_, ?_⟩
    · intro callee hflow
      obtain ⟨start, hstart, hcrosses⟩ := Session.crosses_of_jsr hone hflow
      have hentered := hlooks.handled.flow
      simp only [Session.FlowHandled, hflow] at hentered
      obtain ⟨start', hstart', hdelivered⟩ := hentered.start
      obtain rfl := Except.ok.inj (hstart.symm.trans hstart')
      exact ⟨start, hcrosses, hdelivered⟩
    · intro slot hflow
      obtain ⟨callee, sub, haddress, hsub, hcalls, hcrosses⟩ := Session.crosses_of_ret hone hflow
      refine ⟨callee, haddress, ?_⟩
      intro jsr site hsite hcallee
      obtain ⟨caller, hcaller, hcross⟩ := hcrosses jsr site hsite hcallee
      obtain ⟨callee', sub', hsub', hleft, hreturned⟩ := hlooks.returned slot hflow
      obtain rfl := VType.returnAddress.inj (Option.some.inj (haddress.symm.trans hleft.address))
      obtain rfl := Option.some.inj (hsub.symm.trans hsub')
      obtain ⟨-, caller', hcaller', hdelivered⟩ := hreturned.calls jsr site (hcalls ▸ hsite) hcallee
      obtain rfl := Option.some.inj (hcaller.symm.trans hcaller')
      refine ⟨caller, _, hcaller, hcross, ?_⟩
      unfold Session.continuationFrame Session.accessedIn
      rw [← Session.returnedFrame_congr site.frame slot.toNat fun k => Session.isAccessed_eq_contains sub]
      exact hdelivered

/-! A call with a new object on the stack, which is still there behind the call:

    0 new 2;  3 jsr 8;  6 pop;  7 return;  8 astore_0;  9 ret 0
-/

namespace Carried

def method : Method :=
  { Method.bare ⟨[], none⟩ 2 1 [0xbb, 0x00, 0x02, 0xa8, 0x00, 0x05, 0x57, 0xb1, 0x4b, 0xa9, 0x00] with
    constants := (⟨.ofList 1 [.utf8 "java/lang/Object", .classInfo 1]⟩ : ConstantPool).resolver }

/-- In front of the call. -/
def calling : Frame := ⟨[.top], [.uninitialized 0 .object], []⟩

/-- At the start of the subroutine. -/
def entered : Frame := ⟨[.top], [.returnAddress 8, .uninitialized 0 .object], [8]⟩

/-- In front of the `ret`. -/
def leaving : Frame := ⟨[.returnAddress 8], [.uninitialized 0 .object], [8]⟩

/-- The new object crosses both ways. -/
theorem object_crosses :
    ∃ setup entry, Inference.prepare false method = .ok (setup, entry) ∧
      (∃ s i g, Inference.Passes setup entry (some (1, calling)) s ∧ setup.body.get? 1 = some i ∧
        s.Crosses setup i calling 8 g ∧ SomeUninitialized (g.locals ++ g.stack)) ∧
      ∃ s i g, Inference.Passes setup entry (some (5, leaving)) s ∧ setup.body.get? 5 = some i ∧
        s.Crosses setup i leaving 6 g ∧ SomeUninitialized (g.locals ++ g.stack) := by
  have htest : (Inference.prepare false method).toOption.any (fun prepared =>
      ((Session.start prepared.1.body.codeLength prepared.1.method.code.maxLocals.toNat).mergeInto
        prepared.1 0 prepared.2).toOption.any fun first => (first.states.get? 0).any fun st =>
      (prepared.1.body.get? 0).any fun i₀ => (prepared.1.body.get? 1).any fun i₁ => (prepared.1.body.get? 4).any fun i₄ =>
      (prepared.1.body.get? 5).any fun i₅ =>
      (Session.interpretOne { first with worklist := [], states := first.states.insert 0 { st with visited := true } }
        prepared.1 i₀ st.frame).toOption.any fun made =>
      (made.1.interpretOne prepared.1 i₁ calling).toOption.any fun called => (called.1.states.get? 8).any fun st₈ =>
      (Session.interpretOne { called.1 with worklist := [], states := called.1.states.insert 8 { st₈ with visited := true } }
        prepared.1 i₄ entered).toOption.any fun stored =>
      (stored.1.interpretOne prepared.1 i₅ leaving).toOption.any fun left => (stored.1.calls.get? 3).any fun site =>
      (prepared.1.body.startingAt? 3).any fun caller =>
        (first.worklist = [0] ∧ prepared.1.body.indexOf? 0 = some 0 ∧ made.2 = some calling ∧
          made.1.isMerged prepared.1 i₁.position = false) ∧
        (called.2 = none ∧ called.1.worklist = [8] ∧ st₈.frame = entered ∧ prepared.1.body.indexOf? 8 = some 4) ∧
        (stored.2 = some leaving ∧ stored.1.isMerged prepared.1 i₅.position = false ∧ left.2 = none) ∧
        i₁.flow = .jsr 8 ∧ i₅.flow = .ret 0 ∧ site.entry = 8 ∧ caller.next = 6) = true := by
    decide +kernel
  simp only [Option.any_eq_true, decide_eq_true_eq, toOption_eq_some] at htest
  obtain ⟨⟨setup, entry⟩, hprepare, first, hfirst, st, hst, i₀, hi₀, i₁, hi₁, i₄, hi₄, i₅, hi₅, ⟨made, next₀⟩, hmade,
    ⟨called, next₁⟩, hcalled, ⟨_, _, visited₈⟩, hst₈, ⟨stored, next₄⟩, hstored, ⟨left, next₅⟩, hleft, site, hsite, caller,
    hcaller, ⟨hwork, hindex, hnext₀, hmerged₁⟩, ⟨hnext₁, hwork₈, hframe₈, hindex₈⟩, ⟨hnext₄, hmerged₅, hnext₅⟩, hjsr, hret,
    hcallee, hbehind⟩ := htest
  dsimp only at hnext₀ hnext₁ hframe₈ hnext₄ hnext₅
  subst hnext₀ hnext₁ hframe₈ hnext₄ hnext₅
  have hcall := (Inference.Passes.state (.enter hfirst) hwork hst hindex).on hi₀ hmade hi₁ hmerged₁
  have hreturn := (Inference.Passes.state (hcall.left hi₁ hcalled) hwork₈ hst₈ hindex₈).on hi₄ hstored hi₅ hmerged₅
  -- the stack has the object in front of both instructions
  have hstack : SomeUninitialized calling.stack := ⟨_, List.mem_singleton.mpr rfl, rfl⟩
  have hstack' : SomeUninitialized leaving.stack := ⟨_, List.mem_singleton.mpr rfl, rfl⟩
  obtain ⟨hcrosses, hgoes⟩ := boundary_clears_locals hprepare (by decide) rfl hcall hi₁
  obtain ⟨hcrosses', hgoes'⟩ := boundary_clears_locals hprepare (by decide) rfl hreturn hi₅
  obtain ⟨start, hstart, -⟩ := (hgoes _ _ hcalled).1 8 hjsr
  obtain ⟨callee, haddress, hbehindCalls⟩ := (hgoes' _ _ hleft).2 0 hret
  obtain rfl : 8 = callee := VType.returnAddress.inj (Option.some.inj haddress)
  obtain ⟨caller', returned, hcaller', hreturned, -⟩ := hbehindCalls 3 site hsite hcallee
  obtain rfl := Option.some.inj (hcaller.symm.trans hcaller')
  rw [hbehind] at hreturned
  exact ⟨setup, entry, hprepare, ⟨_, i₁, start, hcall, hi₁, hstart, (hcrosses _ _ hstart).2.1.mpr hstack⟩,
    _, i₅, returned, hreturn, hi₅, hreturned, (hcrosses' _ _ hreturned).2.1.mpr hstack'⟩

end Carried

end Bytecode
