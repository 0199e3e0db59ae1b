import Bytecode.Proofs.NestedCalls

/-!
# Bindings of calls and returns

Calls and `ret` instructions are found in any order, and are looked at again with other frames.  In the end a `ret`
belongs to one subroutine, and a subroutine has at most one `ret`, to which all its calls are bound.

* `Settled.below_of_looks`: no look has a frame above the one that its instruction ends with.  So all looks at a `ret`
  find the address that the last one finds (`Settled.returns_from_one`);
* `Settled.accounts`: a subroutine and the `ret` instructions noted for it come from looks (`Registry.Accounts`).  So
  every `ret` of a subroutine has its address at the end, and is bound to every call of it (`Settled.bound_of_ret`);
* `returns_bound` puts them together: one `ret` is bound to a call, so there cannot be two.
-/

namespace Bytecode

namespace VType

theorem eq_of_le_returnAddress {a : VType} {entry : Nat} (h : a ≤ .returnAddress entry) : a = .returnAddress entry := by
  cases (h : Le a (.returnAddress entry)) with
  | refl => rfl

end VType

/-! ## Looks and the last frame -/

namespace Inference

variable {setup : Setup} {code : List UInt8} {entry : Frame} {look : Option (Nat × Frame)} {s u : Session}

/-- Whatever is looked at on the way, and whatever is kept of a `ret`, arrives by the states at the end. -/
theorem Passes.arrives (hp : setup.Prepared code) (hentry : entry.Fits setup) (hanalyse : analyse setup entry = .ok s)
    (h : Passes setup entry look u) :
    (∀ index frame, look = some (index, frame) → s.Arrives setup index frame) ∧
      ∀ p f, u.retFrames.get? p = some f → ∃ index i, setup.body.get? index = some i ∧ i.position = p ∧
        s.Arrives setup index f := by
  -- a look keeps its own frame at most
  have hkept : ∀ {u t : Session} {index : Nat} {i : Instruction} {frame : Frame} {next : Option Frame},
      Passes setup entry (some (index, frame)) u → setup.body.get? index = some i →
      u.interpretOne setup i frame = .ok (t, next) →
      ((∀ index' frame', some (index, frame) = some (index', frame') → s.Arrives setup index' frame') ∧
        ∀ p f, u.retFrames.get? p = some f → ∃ index i, setup.body.get? index = some i ∧ i.position = p ∧
          s.Arrives setup index f) →
      ∀ p f, t.retFrames.get? p = some f → ∃ index i, setup.body.get? index = some i ∧ i.position = p ∧
        s.Arrives setup index f := by
    intro u t index i frame next hpasses hi hone ih p f hf
    obtain ⟨hlooks, -⟩ := hpasses.looksAt hp hentry hi hone
    rcases hlooks.retFrames p with hsame | ⟨rfl, -, hown⟩
    · exact ih.2 p f (hsame ▸ hf)
    · obtain rfl := Option.some.inj (hown.symm.trans hf)
      exact ⟨index, i, hi, rfl, ih.1 index _ rfl⟩
  induction h with
  | enter h =>
    refine ⟨by simp, ?_⟩
    intro p f hf
    rw [Session.mergeInto_eq h] at hf
    simp [Session.start] at hf
  | @state u position index rest st hpasses hwork hst hindex ih =>
    refine ⟨?_, ih.2⟩
    intro index' frame' heq
    obtain ⟨rfl, rfl⟩ := Prod.mk.inj (Option.some.inj heq)
    obtain ⟨i, hi, rfl⟩ := hp.tiles.indexOf?_eq_some_iff.mp hindex
    obtain ⟨st', hst', hbelow⟩ := (hpasses.remembers hp hentry hanalyse).states i.position st hst
    have hfits := ((hpasses.keeps hp hentry).1.states i.position st hst).1
    exact ⟨index, i, st', st.frame, hi, hst', hbelow, hfits, .refl index st.frame⟩
  | @ret u position index rest frame hpasses hwork hst hframe hindex ih =>
    refine ⟨?_, ih.2⟩
    intro index' frame' heq
    obtain ⟨rfl, rfl⟩ := Prod.mk.inj (Option.some.inj heq)
    obtain ⟨i, hi, hposition⟩ := hp.tiles.indexOf?_eq_some_iff.mp hindex
    obtain ⟨other, j, hj, hposition', harrives⟩ := ih.2 position frame hframe
    obtain rfl := hp.tiles.index_eq hi hj (hposition.trans hposition'.symm)
    exact harrives
  | nothing _ _ _ _ ih => exact ⟨by simp, ih.2⟩
  | left hpasses hi hone ih => exact ⟨by simp, hkept hpasses hi hone ih⟩
  | met hpasses hi hone hi' hmerged hmerge ih =>
    refine ⟨by simp, ?_⟩
    have hrets := hkept hpasses hi hone ih
    rw [Session.mergeInto_eq hmerge]
    exact hrets
  | @on u t index i i' frame next hpasses hi hone hi' hmerged ih =>
    refine ⟨?_, hkept hpasses hi hone ih⟩
    intro index' frame' heq
    obtain ⟨rfl, rfl⟩ := Prod.mk.inj (Option.some.inj heq)
    obtain ⟨-, hnext⟩ := hpasses.looksAt hp hentry hi hone
    have hhead : ¬ setup.IsHead i'.position := by simp [hpasses.isHead_iff hp hentry hi hone, hmerged]
    exact (ih.1 index frame rfl).trans (.step hi hnext.symm hi' hhead (.refl _ _))

end Inference

namespace Settled

variable {method : Method} {v : Verified} {setup : Setup} {s u : Session} {index : Nat} {i : Instruction} {frame : Frame}

/-- The looks of an analysis are those on the way to its end. -/
theorem passes_of_looks (h : Settled method v setup s) (hlooks : method.Looks index frame u) :
    ∃ start, start.Fits setup ∧ Inference.analyse setup start = .ok s ∧
      Inference.Passes setup start (some (index, frame)) u := by
  obtain ⟨start, hfits, -, hprepare, hanalyse⟩ := h.entered
  obtain ⟨setup', start', hprepare', hpasses⟩ := hlooks
  obtain ⟨rfl, rfl⟩ := Prod.mk.inj (Except.ok.inj (hprepare.symm.trans hprepare'))
  exact ⟨start, hfits, hanalyse, hpasses⟩

/-- The frame of every look says at least as much as the one that its instruction ends with. -/
theorem below_of_looks (h : Settled method v setup s) (hlooks : method.Looks index frame u) :
    ∃ after, v.frameBefore? method index = some after ∧ frame.Below after := by
  obtain ⟨start, hfits, hanalyse, hpasses⟩ := h.passes_of_looks hlooks
  exact h.below_of_arrives ((hpasses.arrives h.prepared hfits hanalyse).1 index frame rfl)

/-- The return address that a frame has in a local, frames that say more have there, too. -/
theorem address_of_below {f after : Frame} {slot entry : Nat} (hbelow : f.Below after)
    (haddress : after.locals[slot]? = some (.returnAddress entry)) : f.locals[slot]? = some (.returnAddress entry) := by
  obtain ⟨t, ht, hle⟩ := forall₂_getElem? hbelow.locals haddress
  rw [ht, VType.eq_of_le_returnAddress hle]

/-- At the end, a `ret` that was looked at returns from a subroutine that it is noted for, and all looks at it found the
address of this one, as far out as the last. -/
theorem returns_from_one (h : Settled method v setup s) {slot : UInt16} (hi : v.body.get? index = some i)
    (hflow : i.flow = .ret slot) (hframe : v.frameBefore? method index = some frame) :
    ∃ entry popped sub, frame.locals[slot.toNat]? = some (.returnAddress entry) ∧
      s.registry.get? entry = some sub ∧ i.position ∈ sub.retInstructions ∧
      s.framesPopped.get? i.position = some popped ∧
      ∀ f u, method.Looks index f u → f.locals[slot.toNat]? = some (.returnAddress entry) ∧
        ∃ outer, f.nesting.leaveThrough entry = .ok (popped, outer) := by
  have hhandled := (h.handled hi hframe).flow
  unfold Session.FlowHandled at hhandled
  simp only [hflow] at hhandled
  obtain ⟨-, entry, hleft, -⟩ := hhandled
  obtain ⟨popped, -, -, hpopped⟩ := hleft.popped
  obtain ⟨sub, hsub, hmem⟩ := hleft.registered
  refine ⟨entry, popped, sub, hleft.address, hsub, hmem, hpopped, ?_⟩
  intro f u hlooks
  obtain ⟨after, hafter, hbelow⟩ := h.below_of_looks hlooks
  obtain rfl := Option.some.inj (hframe.symm.trans hafter)
  have haddress := address_of_below hbelow hleft.address
  refine ⟨haddress, ?_⟩
  -- the look notes how far it returns, and what is noted stays
  obtain ⟨start, hfits, hanalyse, hpasses⟩ := h.passes_of_looks hlooks
  obtain ⟨t, next, hone, hremembers⟩ := hpasses.goesThrough h.prepared hfits hanalyse (h.get?_setup hi)
  obtain ⟨hlooksAt, -⟩ := hpasses.looksAt h.prepared hfits (h.get?_setup hi) hone
  obtain ⟨entry', -, -, hleft', -⟩ := hlooksAt.returned slot hflow
  obtain ⟨popped', outer, hleave, hpopped'⟩ := hleft'.popped
  obtain rfl : entry = entry' := VType.returnAddress.inj (Option.some.inj (haddress.symm.trans hleft'.address))
  obtain rfl : popped = popped' :=
    Option.some.inj (hpopped.symm.trans (hremembers.framesPopped i.position popped' hpopped'))
  exact ⟨outer, hleave⟩

/-! ## What is noted of subroutines -/

/-- At the end, every subroutine has a call that was looked at, and every `ret` noted for it was looked at and has its
address. -/
theorem accounts (h : Settled method v setup s) :
    s.registry.Accounts
      (fun entry => ∃ index jsr frame, v.body.get? index = some jsr ∧ jsr.flow = .jsr entry ∧
        v.frameBefore? method index = some frame)
      (fun entry ret => ∃ index i slot frame, v.body.get? index = some i ∧ i.position = ret ∧ i.flow = .ret slot ∧
        v.frameBefore? method index = some frame ∧ frame.locals[slot.toNat]? = some (.returnAddress entry)) := by
  obtain ⟨start, hfits, -, hprepare, hanalyse⟩ := h.entered
  refine (Inference.passes_analyse h.prepared hanalyse).accounts ?_ ?_
  · intro index jsr frame u entry hpasses hi hflow
    obtain ⟨after, hafter, -⟩ := h.below_of_looks ⟨setup, start, hprepare, hpasses⟩
    exact ⟨index, jsr, after, h.body_eq ▸ hi, hflow, hafter⟩
  · intro index i frame u slot entry hpasses hi hflow haddress
    rw [← h.body_eq] at hi
    have hlooks : method.Looks index frame u := ⟨setup, start, hprepare, hpasses⟩
    obtain ⟨after, hafter, -⟩ := h.below_of_looks hlooks
    obtain ⟨entry', popped, sub, hlast, -, -, -, hall⟩ := h.returns_from_one hi hflow hafter
    obtain rfl : entry = entry' :=
      VType.returnAddress.inj (Option.some.inj (haddress.symm.trans (hall frame u hlooks).1))
    exact ⟨index, i, slot, after, hi, rfl, hflow, hafter, hlast⟩

/-- A call that was looked at is bound to every `ret` of the subroutine. -/
theorem bound_of_ret (h : Settled method v setup s) {jsr : Instruction} {entry ret : Nat} {sub : Subroutine}
    (hjsr : v.body.get? index = some jsr) (hcall : jsr.flow = .jsr entry)
    (hframe : v.frameBefore? method index = some frame) (hsub : s.registry.get? entry = some sub)
    (hret : ret ∈ sub.retInstructions) : s.jsrRets.get? jsr.position = some ret := by
  obtain ⟨-, -, hrets⟩ := h.accounts entry sub hsub
  obtain ⟨retIndex, i, slot, f, hi, rfl, hflow, hf, haddress⟩ := hrets ret hret
  obtain ⟨-, -, -, -, -, -, -, -, hbound, -⟩ := h.returned hi hf hflow haddress hjsr hframe hcall
  exact hbound

/-- A call that is bound is bound to a `ret` of the subroutine that it calls. -/
theorem ret_of_bound (h : Settled method v setup s) {jsr : Instruction} {entry ret : Nat} {sub : Subroutine}
    (hjsr : v.body.get? index = some jsr) (hcall : jsr.flow = .jsr entry) (hsub : s.registry.get? entry = some sub)
    (hbound : s.jsrRets.get? jsr.position = some ret) : ret ∈ sub.retInstructions := by
  obtain ⟨start, hexplores, -⟩ := h.explores
  obtain ⟨retIndex, i, f, site, hi, rfl, hsite, ⟨slot, hflow, haddress⟩, harrives⟩ := hexplores.bound _ ret hbound
  -- the call on record is of the subroutine that the instruction calls
  obtain ⟨-, other, jsr', hjsr', hposition, hcall'⟩ := h.wellFormed.calls _ site hsite
  rw [← h.body_eq] at hjsr' hi
  obtain rfl := h.tiles.index_eq hjsr' hjsr hposition
  obtain rfl := Option.some.inj (hjsr'.symm.trans hjsr)
  obtain rfl : entry = site.entry := Flow.jsr.inj (hcall.symm.trans hcall')
  -- so the `ret` has the address of this one at the end
  obtain ⟨after, hafter, hbelow⟩ := h.below_of_arrives harrives
  obtain ⟨entry', popped, sub', hlast, hsub', hmem, -⟩ := h.returns_from_one hi hflow hafter
  have hsame := VType.returnAddress.inj (Option.some.inj (haddress.symm.trans (address_of_below hbelow hlast)))
  rw [hsame] at hsub
  obtain rfl := Option.some.inj (hsub.symm.trans hsub')
  exact hmem

theorem subroutine_of_call (h : Settled method v setup s) {jsr : Instruction} {entry : Nat}
    (hjsr : v.body.get? index = some jsr) (hcall : jsr.flow = .jsr entry)
    (hframe : v.frameBefore? method index = some frame) : ∃ sub, s.registry.get? entry = some sub := by
  have hhandled := (h.handled hjsr hframe).flow
  unfold Session.FlowHandled at hhandled
  simp only [hcall] at hhandled
  obtain ⟨sub, hsub, -⟩ := hhandled.registered
  exact ⟨sub, hsub⟩

end Settled

theorem bound_eq_head? {rets : List Nat} {bound : Option Nat} (hall : ∀ ret ∈ rets, bound = some ret)
    (honly : ∀ ret, bound = some ret → ret ∈ rets) : bound = rets.head? := by
  cases rets with
  | nil =>
    cases bound with
    | none => rfl
    | some ret => simpa using honly ret rfl
  | cons ret rest => exact hall ret List.mem_cons_self

/-- **Calls and returns of an accepted method are bound to each other.**  All looks at a `ret` found the address of one
subroutine and left as many subroutines; a subroutine has at most one `ret`; and every call that was looked at is bound
to this `ret`, or to none if there is none. -/
theorem returns_bound {method : Method} {v : Verified} (hfits : method.code.bytes.length < 2 ^ 64)
    (hverify : method.verify = .ok v) :
    (∀ index i slot, v.body.get? index = some i → i.flow = .ret slot → v.visited.contains i.position = true →
      ∃ entry popped sub, v.subroutines.get? entry = some sub ∧ i.position ∈ sub.retInstructions ∧
        v.framesPopped.get? i.position = some popped ∧ (∃ frame s, method.Looks index frame s) ∧
        ∀ frame s, method.Looks index frame s → frame.locals[slot.toNat]? = some (.returnAddress entry) ∧
          ∃ outer, frame.nesting.leaveThrough entry = .ok (popped, outer)) ∧
    (∀ entry sub, v.subroutines.get? entry = some sub → sub.retInstructions.length ≤ 1) ∧
    ∀ index jsr entry, v.body.get? index = some jsr → jsr.flow = .jsr entry →
      v.visited.contains jsr.position = true →
      ∃ sub, v.subroutines.get? entry = some sub ∧ v.jsrRets.get? jsr.position = sub.retInstructions.head? := by
  obtain ⟨setup, s, h⟩ := Method.settled hfits hverify
  rw [h.subroutines_eq]
  refine ⟨?_, ?_, ?_⟩
  · intro index i slot hi hflow hvisited
    obtain ⟨frame, hframe⟩ := Option.isSome_iff_exists.mp ((h.visited_iff hi).mp hvisited)
    obtain ⟨entry, popped, sub, -, hsub, hmem, hpopped, hall⟩ := h.returns_from_one hi hflow hframe
    obtain ⟨start, hstart, -, hprepare, hanalyse⟩ := h.entered
    obtain ⟨u, hpasses⟩ := h.passes hstart hanalyse hframe
    rw [h.verified]
    exact ⟨entry, popped, sub, hsub, hmem, hpopped, ⟨frame, u, setup, start, hprepare, hpasses⟩, hall⟩
  · intro entry sub hsub
    obtain ⟨⟨index, jsr, frame, hjsr, hcall, hframe⟩, hnodup, -⟩ := h.accounts entry sub hsub
    -- two of them would be bound to the same call
    have hbound : ∀ ret ∈ sub.retInstructions, s.jsrRets.get? jsr.position = some ret :=
      fun ret hret => h.bound_of_ret hjsr hcall hframe hsub hret
    match hrets : sub.retInstructions with
    | [] => simp
    | [ret] => simp
    | first :: second :: rest =>
      rw [hrets] at hbound hnodup
      have hsame := Option.some.inj ((hbound first (by simp)).symm.trans (hbound second (by simp)))
      simp [hsame] at hnodup
  · intro index jsr entry hjsr hcall hvisited
    obtain ⟨frame, hframe⟩ := Option.isSome_iff_exists.mp ((h.visited_iff hjsr).mp hvisited)
    obtain ⟨sub, hsub⟩ := h.subroutine_of_call hjsr hcall hframe
    rw [h.verified]
    exact ⟨sub, hsub, bound_eq_head? (fun ret hret => h.bound_of_ret hjsr hcall hframe hsub hret)
      (fun ret hret => h.ret_of_bound hjsr hcall hsub hret)⟩

/-- Two calls of a subroutine that returns, the second found after its `ret`, and one of a subroutine that does not:

     0 jsr 10;  3 jsr 10;  6 jsr 13;  9 return;
    10 astore_0;  11 ret 0;
    13 pop;  14 return
-/
def returningAndNot : Method :=
  Method.bare ⟨[], none⟩ 1 1
    [0xa8, 0x00, 0x0a, 0xa8, 0x00, 0x07, 0xa8, 0x00, 0x07, 0xb1, 0x4b, 0xa9, 0x00, 0x57, 0xb1]

theorem returningAndNot_bound :
    ∃ v ret first second third, returningAndNot.verify = .ok v ∧
      v.body.get? 5 = some ret ∧ ret.flow = .ret 0 ∧ v.visited.contains ret.position = true ∧
      (∃ frame s, returningAndNot.Looks 5 frame s) ∧
      (∃ entry, ∀ frame s, returningAndNot.Looks 5 frame s → frame.locals[0]? = some (.returnAddress entry) ∧
        ∃ outer, frame.nesting.leaveThrough entry = .ok (1, outer)) ∧
      v.body.get? 0 = some first ∧ v.body.get? 1 = some second ∧ v.body.get? 2 = some third ∧
      v.jsrRets.get? first.position = some 11 ∧ v.jsrRets.get? second.position = some 11 ∧
      v.jsrRets.get? third.position = none := by
  obtain ⟨v, hverify, htest⟩ := @Method.exists_of_within returningAndNot 20
    (fun v => (v.body.get? 5).any (fun i => i.flow = .ret 0 && v.visited.contains i.position &&
        v.framesPopped.get? i.position = some 1) &&
      (v.body.get? 0).any (fun i => i.flow = .jsr 10 && v.visited.contains i.position) &&
      (v.body.get? 1).any (fun i => i.flow = .jsr 10 && v.visited.contains i.position) &&
      (v.body.get? 2).any (fun i => i.flow = .jsr 13 && v.visited.contains i.position) &&
      (v.subroutines.get? 10).any (fun sub => sub.retInstructions = [11]) &&
      (v.subroutines.get? 13).any (fun sub => sub.retInstructions = [])) (by decide +kernel)
  simp only [Bool.and_eq_true, Option.any_eq_true, decide_eq_true_eq] at htest
  obtain ⟨⟨⟨⟨⟨⟨ret, hret, ⟨hflow, hvisited⟩, hpopped⟩, first, hfirst, hcall₀, hvisited₀⟩, second, hsecond, hcall₁, hvisited₁⟩,
    third, hthird, hcall₂, hvisited₂⟩, sub, hsub, hrets⟩, other, hother, hnone⟩ := htest
  obtain ⟨hreturns, -, hcalls⟩ := returns_bound (by decide) hverify
  obtain ⟨entry, popped, -, -, -, hpopped', hlooks, hall⟩ := hreturns 5 ret 0 hret hflow hvisited
  obtain rfl := Option.some.inj (hpopped.symm.trans hpopped')
  obtain ⟨sub₀, hsub₀, hbound₀⟩ := hcalls 0 first 10 hfirst hcall₀ hvisited₀
  obtain ⟨sub₁, hsub₁, hbound₁⟩ := hcalls 1 second 10 hsecond hcall₁ hvisited₁
  obtain ⟨sub₂, hsub₂, hbound₂⟩ := hcalls 2 third 13 hthird hcall₂ hvisited₂
  obtain rfl := Option.some.inj (hsub.symm.trans hsub₀)
  obtain rfl := Option.some.inj (hsub.symm.trans hsub₁)
  obtain rfl := Option.some.inj (hother.symm.trans hsub₂)
  rw [hrets] at hbound₀ hbound₁
  rw [hnone] at hbound₂
  exact ⟨v, ret, first, second, third, hverify, hret, hflow, hvisited, hlooks, ⟨entry, hall⟩, hfirst, hsecond, hthird,
    hbound₀, hbound₁, hbound₂⟩

end Bytecode
