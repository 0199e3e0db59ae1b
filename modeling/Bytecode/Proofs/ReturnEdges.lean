import Bytecode.Proofs.Course
import Bytecode.Proofs.Rounds

/-!
# Return edges

A `ret` that is bound to a `jsr` makes an edge to the place behind the `jsr`.  Locals that the subroutine accesses come
along this edge from the `ret`, the others and the one with the return address from the `jsr`.

Which locals a subroutine accesses is found out while its code is looked at, and a `ret` is not looked at again when more
of them become known.  So what is behind the `jsr` is above what comes along the edge for the locals that were known to be
accessed at the last look at the `ret`, and it need not be so for those known at the end.

* `Frame.ClosedAt`: at a local, the frame behind a call is above what comes along the edge;
* `closed_under_return_iff`: at which locals it is, for the accesses known at the end;
* `staleBehindCall`: a body in which a local behind a call keeps a type that it does not have there.
-/

namespace Bytecode

namespace Frame

/-- The type of a local in a frame is below the one in another. -/
def BelowAt (f g : Frame) (k : Nat) : Prop :=
  ∃ t u, f.locals[k]? = some t ∧ g.locals[k]? = some u ∧ t.join u = u

/-- At a local, the frame behind a call is above what comes along the edge from the `ret`.  Uninitialized objects and
halves of broken values do not come along, and where the frame behind has no type for such a local it is above any. -/
def ClosedAt (accessed : Nat → Bool) (slot : Nat) (atCall atRet behind : Frame) (k : Nat) : Prop :=
  (if k = slot ∨ accessed k = false then atCall else atRet).BelowAt behind k

theorem belowAt_of_forall₂ {f g : Frame} (h : List.Forall₂ (· ≤ ·) f.locals g.locals) {k : Nat}
    (hk : k < f.locals.length) : f.BelowAt g k := by
  obtain ⟨u, hu, hle⟩ := forall₂_getElem? h.flip (List.getElem?_eq_getElem hk)
  exact ⟨_, u, List.getElem?_eq_getElem hk, hu, VType.le_iff_join_eq.mp hle⟩

theorem BelowAt.trans {f g h : Frame} {k : Nat} (hfg : f.BelowAt g k) (hgh : g.BelowAt h k) : f.BelowAt h k := by
  obtain ⟨t, u, ht, hu, hle⟩ := hfg
  obtain ⟨u', w, hu', hw, hle'⟩ := hgh
  obtain rfl := Option.some.inj (hu.symm.trans hu')
  refine ⟨t, w, ht, hw, ?_⟩
  rw [← VType.le_iff_join_eq] at hle hle' ⊢
  exact hle.trans hle'

theorem le_withoutUninitialized (f : Frame) : List.Forall₂ (· ≤ ·) f.locals f.withoutUninitialized.locals := by
  unfold withoutUninitialized
  rw [List.forall₂_map_right_iff, List.forall₂_same]
  intro t _
  split
  · exact VType.le_top t
  · exact le_refl t

/-- What comes along the edge is below the frame behind the call. -/
theorem belowAt_continuationFrame {call ret : Frame} {accessed : Nat → Bool} {slot k : Nat}
    (hcall : k < call.locals.length) (hret : k < ret.locals.length) :
    (if k = slot ∨ accessed k = false then call else ret).BelowAt
      (Session.continuationFrame call ret slot accessed) k := by
  -- the locals that are put together from both frames
  obtain ⟨mixed, hmixed⟩ : ∃ mixed : Frame, mixed.locals = (call.locals.zip ret.locals).zipIdx.map
      (fun both => if both.2 = slot || !accessed both.2 then both.1.1 else both.1.2) ∧
      mixed.normalizeLocals = Session.returnedFrame call ret slot accessed := ⟨_, rfl, rfl⟩
  have hlength : mixed.locals.length = min call.locals.length ret.locals.length := by
    rw [hmixed.1, List.length_map, List.length_zipIdx, List.length_zip]
  have hnormal : mixed.BelowAt mixed.normalizeLocals k := by
    apply belowAt_of_forall₂
    · exact le_normalized mixed.locals
    · omega
  have hwithout : mixed.BelowAt mixed.normalizeLocals.withoutUninitialized k := by
    apply hnormal.trans
    apply belowAt_of_forall₂ (le_withoutUninitialized _)
    unfold normalizeLocals
    rw [← (le_normalized mixed.locals).length_eq]
    omega
  rw [hmixed.2] at hwithout
  obtain ⟨t, u, ht, hu, hle⟩ := hwithout
  refine ⟨t, u, ?_, hu, hle⟩
  have hzip : (call.locals.zip ret.locals)[k]? = some (call.locals[k], ret.locals[k]) := by
    rw [List.getElem?_eq_getElem (by rw [List.length_zip]; omega), List.getElem_zip]
  rw [hmixed.1, List.getElem?_map, List.getElem?_zipIdx, hzip] at ht
  by_cases hown : k = slot ∨ accessed k = false
  · rw [if_pos hown, List.getElem?_eq_getElem hcall]
    simpa [hown] using ht
  · rw [if_neg hown, List.getElem?_eq_getElem hret]
    push Not at hown
    simpa [hown] using ht

/-- Where a subroutine returned to a call, the edge is closed. -/
theorem closedAt_of_delivered {atCall call atRet behind : Frame} {accessed : Nat → Bool} {slot k : Nat}
    (hcall : atCall.LocallyBelow call) (hbehind : (Session.continuationFrame call atRet slot accessed).Below behind)
    (hk : k < atCall.locals.length) (hk' : k < atRet.locals.length) : ClosedAt accessed slot atCall atRet behind k := by
  have hcome : (if k = slot ∨ accessed k = false then call else atRet).BelowAt behind k := by
    have hmixed : (if k = slot ∨ accessed k = false then call else atRet).BelowAt
        (Session.continuationFrame call atRet slot accessed) k := by
      apply belowAt_continuationFrame
      · rw [← hcall.locals.length_eq]
        exact hk
      · exact hk'
    apply hmixed.trans
    obtain ⟨_, _, -, hu, -⟩ := hmixed
    exact belowAt_of_forall₂ hbehind.locals (List.getElem?_eq_some_iff.mp hu).1
  unfold ClosedAt
  by_cases hown : k = slot ∨ accessed k = false
  · rw [if_pos hown] at hcome ⊢
    exact (belowAt_of_forall₂ hcall.locals hk).trans hcome
  · rw [if_neg hown] at hcome ⊢
    exact hcome

/-- A call that is returned to with the locals in `known` taken as accessed is closed for them, and for more accesses
exactly where the local at the `ret` happens to be below. -/
theorem closedAt_iff {known final : Nat → Bool} {slot k : Nat} {atCall atRet behind : Frame}
    (hknown : known k = true → final k = true) (h : ClosedAt known slot atCall atRet behind k) :
    ClosedAt final slot atCall atRet behind k ↔
      (k ≠ slot → final k = true → known k = true ∨ atRet.BelowAt behind k) := by
  unfold ClosedAt at h ⊢
  by_cases hslot : k = slot
  · rw [if_pos (Or.inl hslot)] at h ⊢
    exact ⟨fun _ hne => absurd hslot hne, fun _ => h⟩
  · cases hfinal : final k with
    | false =>
      have hnot : known k = false := by
        cases hk : known k with
        | false => rfl
        | true => simp [hknown hk] at hfinal
      rw [if_pos (Or.inr hnot)] at h
      rw [if_pos (Or.inr rfl)]
      exact ⟨fun _ _ hfalse => by simp at hfalse, fun _ => h⟩
    | true =>
      rw [if_neg (by simp [hslot])]
      refine ⟨fun hbelow _ _ => Or.inr hbelow, fun hone => ?_⟩
      rcases hone hslot rfl with hk | hbelow
      · rwa [if_neg (by simp [hslot, hk])] at h
      · exact hbelow

end Frame

/-- The edge from a `ret` to the place behind a `jsr` that is bound to it: the instructions with the indices `caller` and
`index`, the subroutine with all that is known of it at the end, and the frames at the `jsr`, at the `ret` and behind the
`jsr`. -/
structure Verified.ReturnEdge (v : Verified) (method : Method) (caller index entry : Nat) (slot : UInt16)
    (sub : Subroutine) (atCall atRet behind : Frame) : Prop where
  bound : ∃ jsr ret st, v.body.get? caller = some jsr ∧ jsr.flow = .jsr entry ∧ v.body.get? index = some ret ∧
    ret.flow = .ret slot ∧ v.jsrRets.get? jsr.position = some ret.position ∧
    v.states.get? jsr.next = some st ∧ st.frame = behind
  subroutine : v.subroutines.get? entry = some sub
  atCall : v.frameBefore? method caller = some atCall
  atRet : v.frameBefore? method index = some atRet

namespace Settled

variable {method : Method} {v : Verified} {setup : Setup} {s : Session}

/-- A call that is bound to a `ret` calls the subroutine whose return address is in the local of the `ret`. -/
theorem address_of_bound (h : Settled method v setup s) {caller entry r : Nat} {jsr : Instruction} {atCall : Frame}
    (hjsr : v.body.get? caller = some jsr) (hcall : jsr.flow = .jsr entry)
    (hatCall : v.frameBefore? method caller = some atCall) (hbound : s.jsrRets.get? jsr.position = some r) :
    ∃ index ret slot atRet, v.body.get? index = some ret ∧ ret.position = r ∧ ret.flow = .ret slot ∧
      v.frameBefore? method index = some atRet ∧ atRet.locals[slot.toNat]? = some (.returnAddress entry) := by
  obtain ⟨_, hexplores, -⟩ := h.explores
  obtain ⟨index, ret, f, site, hret, hposition, hsite, ⟨slot, hflow, haddress⟩, harrives⟩ :=
    hexplores.bound jsr.position r hbound
  rw [← h.body_eq] at hret
  obtain ⟨atRet, hatRet, hbelow⟩ := h.below_of_arrives harrives
  -- the subroutine that the `jsr` calls
  have hentered := (h.handled hjsr hatCall).flow
  unfold Session.FlowHandled at hentered
  simp only [hcall] at hentered
  obtain ⟨site', hsite', hentry, -⟩ := hentered.call
  obtain rfl := Option.some.inj (hsite.symm.trans hsite')
  rw [hentry] at haddress
  -- the return address that the `ret` was last looked at with
  have hleft := (h.handled hret hatRet).flow
  unfold Session.FlowHandled at hleft
  simp only [hflow] at hleft
  obtain ⟨-, entry', hleft, -⟩ := hleft
  obtain ⟨t, ht, hle⟩ := forall₂_getElem? hbelow.locals.flip haddress
  have heq := Option.some.inj (ht.symm.trans hleft.address)
  subst heq
  rcases VType.eq_or_eq_top hle rfl with hsame | htop
  · refine ⟨index, ret, slot, atRet, hret, hposition, hflow, hatRet, ?_⟩
    rw [ht, hsame]
  · simp at htop

end Settled

/-- **Where return edges are closed.**  Every `jsr` that is reached and bound to a `ret` makes a return edge.  At some look
at the `ret`, with the frame right before it, `known` was known of the subroutine: fewer accesses than at the end.  The
frame behind the `jsr` is above what comes along the edge for these accesses, at every local.  For the accesses known at
the end, it is so at a local exactly if the access of the local was known at that look, or if the type at the `ret` is below
the one behind the `jsr` anyway. -/
theorem closed_under_return_iff {method : Method} {v : Verified} (hfits : method.code.bytes.length < 2 ^ 64)
    (hverify : method.verify = .ok v) {caller entry r : Nat} {jsr : Instruction} {atCall : Frame}
    (hjsr : v.body.get? caller = some jsr) (hcall : jsr.flow = .jsr entry)
    (hreached : v.frameBefore? method caller = some atCall) (hbound : v.jsrRets.get? jsr.position = some r) :
    ∃ (index : Nat) (ret : Instruction) (slot : UInt16) (sub known : Subroutine) (atRet behind : Frame) (look : Session),
      v.body.get? index = some ret ∧ ret.position = r ∧
      v.ReturnEdge method caller index entry slot sub atCall atRet behind ∧
      method.Looks index atRet look ∧ look.registry.get? entry = some known ∧ known.accessed ⊆ sub.accessed ∧
      ∀ k < method.code.maxLocals.toNat,
        Frame.ClosedAt known.isAccessed slot.toNat atCall atRet behind k ∧
        (Frame.ClosedAt sub.isAccessed slot.toNat atCall atRet behind k ↔
          (k ≠ slot.toNat → sub.isAccessed k = true → known.isAccessed k = true ∨ atRet.BelowAt behind k)) := by
  obtain ⟨setup, s, h⟩ := Method.settled hfits hverify
  have hrets : v.jsrRets = s.jsrRets := by
    rw [h.verified]
    rfl
  have hregistry : v.subroutines = s.registry := by
    rw [h.verified]
    rfl
  rw [hrets] at hbound
  obtain ⟨index, ret, slot, atRet, hret, rfl, hflow, hatRet, haddress⟩ :=
    h.address_of_bound hjsr hcall hreached hbound
  obtain ⟨look, known, site, hlooks, hknown, haccessed, -, hlocally, -, st, hst, hbelow⟩ :=
    h.returned hret hatRet hflow haddress hjsr hreached hcall
  -- what is known of the subroutine at the end
  have hentered := (h.handled hjsr hreached).flow
  unfold Session.FlowHandled at hentered
  simp only [hcall] at hentered
  obtain ⟨sub, hsub, -⟩ := hentered.registered
  have hsubset : known.accessed ⊆ sub.accessed := by
    intro k hk
    obtain ⟨sub', hsub', hmem⟩ := haccessed k hk
    rwa [Option.some.inj (hsub.symm.trans hsub')]
  rw [← hregistry] at hsub
  rw [← h.states_eq] at hst
  refine ⟨index, ret, slot, sub, known, atRet, st.frame, look, hret, rfl,
    ⟨⟨jsr, ret, st, hjsr, hcall, hret, hflow, hrets ▸ hbound, hst, rfl⟩, hsub, hreached, hatRet⟩, hlooks, hknown, hsubset, ?_⟩
  intro k hk
  have hlength : atCall.locals.length = method.code.maxLocals.toNat := by
    rw [(h.handled hjsr hreached).fits.length, Setup.maxLocals, h.method_eq]
  have hlength' : atRet.locals.length = method.code.maxLocals.toNat := by
    rw [(h.handled hret hatRet).fits.length, Setup.maxLocals, h.method_eq]
  have hclosed : Frame.ClosedAt known.isAccessed slot.toNat atCall atRet st.frame k :=
    Frame.closedAt_of_delivered hlocally hbelow (by omega) (by omega)
  refine ⟨hclosed, Frame.closedAt_iff ?_ hclosed⟩
  intro hk'
  exact List.contains_iff_mem.mpr (hsubset (List.contains_iff_mem.mp hk'))

/-- A body with a subroutine that stores to local 1 on a path that is looked at after its `ret`:

    0 iconst_0;  1 ifeq 10;  4 iconst_0;  5 istore_1;  6 jsr 16;  9 return;  10 fconst_0;  11 fstore_1;  12 jsr 16;
    15 return;  16 astore_0;  17 iconst_0;  18 ifeq 33;  21 iconst_0;  22 ifeq 28;  25 goto 33;  28 aconst_null;
    29 astore_1;  30 goto 33;  33 ret 0
-/
def staleBehindCall : Method := .bare ⟨[], none⟩ 1 2
  [0x03, 0x99, 0x00, 0x09, 0x03, 0x3c, 0xa8, 0x00, 0x0a, 0xb1, 0x0b, 0x44, 0xa8, 0x00, 0x04, 0xb1, 0x4b, 0x03, 0x99, 0x00,
    0x0f, 0x03, 0x99, 0x00, 0x06, 0xa7, 0x00, 0x08, 0x01, 0x4c, 0xa7, 0x00, 0x03, 0xa9, 0x00]

/-- The subroutine is known to access local 1 at the end, and leaves no type in it; behind the call at 6 it is still an
`int`, as at the call. -/
theorem closed_under_return_stale :
    ∃ v jsr index slot sub known atCall atRet behind look, staleBehindCall.verify = .ok v ∧ v.body.get? 4 = some jsr ∧
      jsr.flow = .jsr 16 ∧ v.frameBefore? staleBehindCall 4 = some atCall ∧ v.jsrRets.get? jsr.position = some 33 ∧
      v.ReturnEdge staleBehindCall 4 index 16 slot sub atCall atRet behind ∧
      staleBehindCall.Looks index atRet look ∧ look.registry.get? 16 = some known ∧
      1 ≠ slot.toNat ∧ sub.isAccessed 1 = true ∧ known.isAccessed 1 = false ∧
      ¬ Frame.ClosedAt sub.isAccessed slot.toNat atCall atRet behind 1 := by
  obtain ⟨v, hverify, htest⟩ := @Method.exists_of_within staleBehindCall 40
    (fun v => (v.body.get? 4).any (fun i => i.position = 6 && i.next = 9 && i.flow = .jsr 16) &&
      (v.frameBefore? staleBehindCall 4).isSome && v.jsrRets.get? 6 = some 33 &&
      (v.body.get? 19).any (fun i => i.position = 33 && i.flow = .ret 0) &&
      (v.frameBefore? staleBehindCall 19).any (fun f => f.locals[1]? = some .top) &&
      (v.subroutines.get? 16).any (fun sub => sub.isAccessed 1) &&
      (v.states.get? 9).any (fun st => st.frame.locals[1]? = some .int)) (by decide +kernel)
  simp only [Bool.and_eq_true, Option.any_eq_true, decide_eq_true_eq, Option.isSome_iff_exists] at htest
  obtain ⟨⟨⟨⟨⟨⟨⟨jsr, hjsr, ⟨hposition, hnext⟩, hcall⟩, atCall, hatCall⟩, hbound⟩, ret, hret, hretPosition, hflow⟩,
    f, hf, htop⟩, sub, hsub, haccessed⟩, st, hst, hint⟩ := htest
  rw [← hposition] at hbound
  rw [← hnext] at hst
  obtain ⟨index, ret', slot, sub', known, atRet, behind, look, hret', hretPosition', hedge, hlooks, hknown, -, hclosed⟩ :=
    closed_under_return_iff (by decide) hverify hjsr hcall hatCall hbound
  -- the `ret` and what is there at the end
  obtain ⟨_, _, hsettled⟩ := Method.settled (by decide) hverify
  obtain rfl := hsettled.tiles.index_eq hret hret' (hretPosition.trans hretPosition'.symm)
  obtain ⟨jsr', ret'', st', hjsr', -, hret'', hflow', -, hst', rfl⟩ := hedge.bound
  obtain rfl := Option.some.inj (hjsr.symm.trans hjsr')
  obtain rfl := Option.some.inj (hret.symm.trans hret'')
  obtain rfl := Option.some.inj (hst.symm.trans hst')
  obtain rfl := Option.some.inj (hsub.symm.trans hedge.subroutine)
  obtain rfl := Option.some.inj (hf.symm.trans hedge.atRet)
  obtain rfl := Flow.ret.inj (hflow.symm.trans hflow')
  have hstale : ¬ Frame.ClosedAt sub.isAccessed (0 : UInt16).toNat atCall f st.frame 1 := by
    unfold Frame.ClosedAt
    rw [if_neg (by simp [haccessed])]
    rintro ⟨t, u, ht, hu, hjoin⟩
    rw [htop] at ht
    rw [hint] at hu
    obtain rfl := Option.some.inj ht
    obtain rfl := Option.some.inj hu
    simp [VType.join] at hjoin
  refine ⟨v, jsr, 19, 0, sub, known, atCall, f, st.frame, look, hverify, hjsr, hcall, hatCall, hbound, hedge, hlooks, hknown,
    by decide, haccessed, ?_, hstale⟩
  cases hseen : known.isAccessed 1 with
  | false => rfl
  | true => exact absurd ((hclosed 1 (by decide)).2.mpr fun _ _ => Or.inl hseen) hstale

end Bytecode
