import Bytecode.Proofs.ExceptionRanges
import Bytecode.Proofs.Rounds

/-!
# Protected code stays protected

An exception that is thrown in protected code goes to the handler.  In the new code every copy of the protected code has
to be in the range of an entry that leads to a copy of the handler, in the same call or in one around it.

The subroutines active at a handler are merged from all the code that it protects.  They are those of a copy, or fewer; but
they need not be the outermost ones of the copy, and then no copy of the handler is in a call around it and the new table
has no entry for it.

* `Layout.Protected`: the new table has an entry for a copy;
* `Settled.handler_within`: which subroutines can be active at a handler;
* `protected_iff`: a copy is protected exactly if the subroutines active at the handler are the outermost ones of its call;
* `sharedHandler`: a handler over the code of two subroutines, of which one loses its protection.
-/

namespace Bytecode

/-- In the new table an entry with the type of `e` has the copy with a number in its range, and leads to a copy of the
handler in its call or in one around it. -/
def Layout.Protected (l : Layout) (table : List ExceptionHandler) (number : Nat) (c : Copy) (e : ExceptionHandler) : Prop :=
  ∃ new ∈ table, new.catchType = e.catchType ∧ new.startPc.toNat ≤ l.positionOf number ∧
    l.positionOf number < new.endPc.toNat ∧
    ∃ handler, l.expansion.Reaches e.handlerPc.toNat c.call handler ∧ new.handlerPc.toNat = l.positionOf handler

/-- If a copy of the handler is reached from the call of a copy, the copy is protected. -/
theorem Verified.Lays.protected_of_reaches {v : Verified} {code : List UInt8} {l : Layout} {number m : Nat} {c : Copy}
    {table : List ExceptionHandler} {e : ExceptionHandler} (h : v.Lays code l)
    (htable : ∀ e ∈ table, e.handlerPc.toNat < code.length) (hc : l.expansion.copies[number]? = some c)
    (hemitted : c.isEmitted = true) (he : e ∈ table) (hstart : e.startPc.toNat ≤ c.position)
    (hstop : c.position < e.endPc.toNat) (hreaches : l.expansion.Reaches e.handlerPc.toNat c.call m) :
    l.Protected (l.exceptionTable table) number c e := by
  obtain ⟨handler, hhandler, hposition, -⟩ := id hreaches
  have hprotects : Layout.protects e handler c = true :=
    (Verified.Lays.protects_iff hhandler hposition).mpr ⟨hstart, hstop, hreaches⟩
  obtain ⟨r, hr, hfirst, hlast⟩ := (h.ranges_cover _ hc hemitted).mpr hprotects
  have hend : r.2 ≤ l.size := by
    rcases (h.range_bounds hr).2.2 with hsize | ⟨n, c', hc', -, hn⟩
    · exact Nat.le_of_eq hsize
    · rw [← hn, ← h.positionOf_eq hc']
      exact h.positionOf_le n
  refine ⟨_, (h.mem_exceptionTable_iff htable).mpr ⟨e, he, m, handler, hhandler, hposition, r, hr, rfl⟩, rfl, ?_, ?_, m,
    hreaches, ?_⟩
  · rw [h.toNat_ofNat (by omega), h.positionOf_eq hc]
    exact hfirst
  · rw [h.toNat_ofNat hend, h.positionOf_eq hc]
    exact hlast
  · rw [← h.positionOf_eq hhandler, h.toNat_ofNat (h.positionOf_le m)]

namespace Settled

variable {method : Method} {v : Verified} {setup : Setup} {s : Session} {index : Nat} {i : Instruction}
  {nesting : Nesting}

/-- A handler is looked at if code that it protects is, with the same subroutines active or fewer. -/
theorem handler_within (h : Settled method v setup s) (hi : v.body.get? index = some i)
    (hactive : v.activeAt? index = some nesting) {e : ExceptionHandler} (he : e ∈ method.code.exceptionTable)
    (hstart : e.startPc.toNat ≤ i.position) (hstop : i.position < e.endPc.toNat) :
    ∃ target handler nesting', v.body.get? target = some handler ∧ handler.position = e.handlerPc.toNat ∧
      v.activeAt? target = some nesting' ∧ nesting.Within nesting' := by
  rw [h.activeAt?_eq hi] at hactive
  obtain ⟨frame, hframe, rfl⟩ := Option.map_eq_some_iff.mp hactive
  obtain ⟨-, type, htype⟩ := h.table e he
  have hcovers : Handler.covers ⟨e.startPc.toNat, e.endPc.toNat, e.handlerPc.toNat, type⟩ i.position = true := by
    simp [Handler.covers, hstart, hstop]
  -- what is caught has the locals and the subroutines of the protected code
  obtain ⟨caught, hcaught, hdelivered⟩ :=
    (h.handled hi hframe).handlers _ (h.mem_handlers_iff.mpr ⟨e, he, type, htype, rfl⟩) hcovers
  obtain ⟨rfl, -⟩ := Frame.checkHeight_eq_ok.mp hcaught
  obtain ⟨target, handler, nesting', hhandler, hposition, hactive', hwithin⟩ := h.active_of_delivered hdelivered
  exact ⟨target, handler, nesting', hhandler, hposition, hactive', hwithin⟩

end Settled

/-- **Where protection is kept.**  Around a copy that is emitted, a handler of the old table runs with the same subroutines
active as the copy, or with fewer.  The new table protects the copy exactly if they are the outermost ones of its call. -/
theorem protected_iff {method : Method} {v : Verified} {pool : ConstantPool} {out : Code}
    (hfits : method.code.bytes.length < 2 ^ 64) (hverify : method.verify = .ok v)
    (hinline : v.inline method.code pool = .ok out) :
    ∃ l, v.layout = .ok l ∧ ∀ (number : Nat) (c : Copy) (e : ExceptionHandler),
      l.expansion.copies[number]? = some c → c.isEmitted = true → e ∈ method.code.exceptionTable →
      e.startPc.toNat ≤ c.position → c.position < e.endPc.toNat →
      ∃ target handler nesting, v.body.get? target = some handler ∧ handler.position = e.handlerPc.toNat ∧
        v.activeAt? target = some nesting ∧
        (nesting = c.call.nesting ∨ nesting.length < c.call.nesting.length) ∧
        (l.Protected out.exceptionTable number c e ↔ nesting <+: c.call.nesting) := by
  obtain ⟨setup, s, h⟩ := Method.settled hfits hverify
  obtain ⟨l, hlayout, -, htable, -⟩ := Verified.inline_eq_ok hinline
  have hlays := Verified.lays_of_layout h.tiles hlayout
  refine ⟨l, hlayout, fun number c e hc hemitted he hstart hstop => ?_⟩
  have hcopy := hlays.isCopy number c hc
  obtain ⟨target, handler, nesting, hhandler, hposition, hactive, hwithin⟩ :=
    h.handler_within hcopy.get hcopy.active he hstart hstop
  have hreaches := hlays.listsCopies.reaches_iff h.tiles hcopy.call hhandler hactive
  rw [hposition] at hreaches
  refine ⟨target, handler, nesting, hhandler, hposition, hactive, hwithin, ?_⟩
  rw [← hreaches, htable]
  constructor
  · rintro ⟨-, -, -, -, -, m, hm, -⟩
    exact ⟨m, hm⟩
  · rintro ⟨m, hm⟩
    exact hlays.protected_of_reaches (fun e he => (h.table e he).1) hc hemitted he hstart hstop hm

/-- A body with a handler over code of two subroutines, one of them inside of a third:

    0 jsr 7;  3 jsr 17;  6 return;  7 astore_0;  8 jsr 13;  11 ret 0;  13 astore_1;  14 nop;  15 ret 1;  17 astore_2;
    18 nop;  19 ret 2;  21 astore_3;  22 return
-/
def sharedHandler : Method :=
  (Method.bare ⟨[], none⟩ 2 4
    [0xa8, 0x00, 0x07, 0xa8, 0x00, 0x0e, 0xb1, 0x4b, 0xa8, 0x00, 0x05, 0xa9, 0x00, 0x4c, 0x00, 0xa9, 0x01, 0x4d, 0x00, 0xa9,
      0x02, 0x4e, 0xb1]).guarded [⟨14, 19, 21, 0⟩]

/-- The handler runs with subroutine 17 active.  The `nop` at 14 runs with the subroutines 7 and 13, so its copy is not
protected any more. -/
theorem protection_lost :
    ∃ v out l c, sharedHandler.verify = .ok v ∧ v.inline sharedHandler.code .empty = .ok out ∧ v.layout = .ok l ∧
      l.expansion.copies[4]? = some c ∧ c.isEmitted = true ∧ c.position = 14 ∧ c.call.nesting = [7, 13] ∧
      v.activeAt? 12 = some [17] ∧ ¬ l.Protected out.exceptionTable 4 c ⟨14, 19, 21, 0⟩ := by
  obtain ⟨v, l, hverify, hlayout, htest⟩ := @Method.exists_layout_of_within sharedHandler 30
    (fun v l => (v.inline sharedHandler.code .empty).toOption.isSome && v.activeAt? 12 = some [17] &&
      (v.body.get? 12).any (fun i => i.position = 21) &&
      l.expansion.copies[4]?.any (fun c => c.isEmitted && c.position = 14 && c.call.nesting = [7, 13])) (by decide +kernel)
  simp only [Bool.and_eq_true, Option.any_eq_true, decide_eq_true_eq, Option.isSome_iff_exists] at htest
  obtain ⟨⟨⟨⟨out, hout⟩, hactive⟩, catcher, hcatcher, hat⟩, c, hc, ⟨hemitted, hposition⟩, hnesting⟩ := htest
  have hinline : v.inline sharedHandler.code .empty = .ok out := toOption_eq_some.mp hout
  obtain ⟨l', hlayout', hprotected⟩ := protected_iff (by decide) hverify hinline
  obtain rfl := Except.ok.inj (hlayout.symm.trans hlayout')
  obtain ⟨target, handler, nesting, hhandler, hat', hactive', -, hiff⟩ :=
    hprotected 4 c ⟨14, 19, 21, 0⟩ hc hemitted (List.mem_singleton.mpr rfl) (by rw [hposition]; decide)
      (by rw [hposition]; decide)
  -- the handler is the instruction with index 12
  obtain ⟨_, _, hsettled⟩ := Method.settled (by decide) hverify
  obtain rfl := hsettled.tiles.index_eq hcatcher hhandler (hat.trans hat'.symm)
  obtain rfl := Option.some.inj (hactive.symm.trans hactive')
  refine ⟨v, out, l, c, hverify, hinline, hlayout, hc, hemitted, hposition, hnesting, hactive, ?_⟩
  rw [hiff, hnesting]
  decide

end Bytecode
