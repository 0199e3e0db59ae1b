import Bytecode.Proofs.Acceptance
import Bytecode.Proofs.ExceptionRanges
import Bytecode.Proofs.Rounds

/-!
# When the new code is accepted

The new code of a method has no subroutines.  It is accepted exactly if the copies can be typed, one frame for each copy
that control comes to:

* `Layout.IsPlace`: what is done at each copy, by the numbers of the copies;
* `Verified.Lays.renames`: the places of the new code are the copies that are emitted, under their positions;
* `Layout.IsClosed`: no copy that is emitted leads to the end of the code;
* `reverified_iff`: the new code is accepted exactly if the layout is closed and its copies can be typed;
* `poppedAddress`: a subroutine that throws its return address away, which is not there in the new code.
-/

namespace Bytecode

namespace Layout

/-- The place of a copy that does something, by the numbers of the copies.  Nothing is caught around a copy that is left
out. -/
def placeOf (l : Layout) (method : Method) (number : Nat) (c : Copy) (flow : Flow) : Place where
  flow
  stop := c.instruction.flags.stop
  store := c.instruction.flags.store
  context := method.context (l.startOf number)
  next := number + 1
  handles type m := c.isEmitted = true ∧ l.Catches method c type m

/-- The places of the copies, by their numbers. -/
def IsPlace (l : Layout) (method : Method) (number : Nat) (p : Place) : Prop :=
  ∃ c flow, l.expansion.copies[number]? = some c ∧ l.FlowOf number c flow ∧ p = l.placeOf method number c flow

/-- Is the copy with a number written into the new code? -/
def IsEmitted (l : Layout) (number : Nat) : Prop := ∃ c, l.expansion.copies[number]? = some c ∧ c.isEmitted = true

/-- No copy that is emitted leads to the end of the code, where only copies that are left out can stand. -/
structure IsClosed (l : Layout) (method : Method) : Prop where
  named : l.NamesInside
  caught : ∀ (number : Nat) (c : Copy) (type : VType) (m : Nat), l.expansion.copies[number]? = some c →
    c.isEmitted = true → l.Catches method c type m → l.startOf m < l.size

/-- Every copy that control comes to can be given a frame. -/
def IsTypable (l : Layout) (method : Method) : Prop :=
  ∃ entry types, Frame.entry method.className method.isStatic method.isConstructor method.descriptor
    method.code.maxLocals.toNat = .ok entry ∧ Typing (l.IsPlace method) 0 entry types

/-- Some code is the new code of a method. -/
structure Makes (l : Layout) (method : Method) (out : Code) : Prop where
  emits : l.Emits out.bytes
  table : out.exceptionTable = l.exceptionTable method.code.exceptionTable
  maxStack : out.maxStack = method.code.maxStack
  maxLocals : out.maxLocals = method.code.maxLocals

/-- No copy becomes a `jsr` or a `ret`. -/
theorem Becomes.isPlain {l : Layout} {position : Nat} {c : Copy} {i : Instruction} (h : l.Becomes position c i) :
    (∀ target, i.flow ≠ .jsr target) ∧ ∀ slot, i.flow ≠ .ret slot := by
  cases h with
  | keep hkeep hflow => exact hflow.isPlain
  | jsr => simp
  | ret => simp

end Layout

namespace Verified.Lays

variable {v : Verified} {code : List UInt8} {l : Layout} {method : Method} {out : Code} {number : Nat} {c : Copy}
  {setup : Setup}

theorem idles (h : v.Lays code l) : Idles l.startOf l.expansion.copies.size l.IsEmitted (l.IsPlace method) := by
  rintro n p ⟨c, flow, hc, hflow, rfl⟩ hidle
  have hskip : c.isEmitted = false := by
    rw [← Bool.not_eq_true]
    intro hemitted
    exact hidle ⟨c, hc, hemitted⟩
  refine ⟨(Array.getElem?_eq_some_iff.mp hc).1, ?_, ?_, h.startOf_succ_of_skip hc hskip⟩
  · exact hflow.unique (.skip (Copy.isEmitted_eq_false.mp hskip))
  · rintro type m ⟨hemitted, -⟩
    rw [hskip] at hemitted
    simp at hemitted

/-- Every copy does something, if the new code was made. -/
theorem exists_flowOf (h : v.Lays code l) (hemits : l.Emits out.bytes) (hc : l.expansion.copies[number]? = some c) :
    ∃ flow, l.FlowOf number c flow := by
  cases hemitted : c.isEmitted with
  | false => exact ⟨_, .skip (Copy.isEmitted_eq_false.mp hemitted)⟩
  | true =>
    obtain ⟨i, hbecomes, -⟩ := h.decodes_of_emits hemits hc hemitted
    obtain ⟨flow, hflow, -⟩ := hbecomes.exists_flow number
    exact ⟨flow, hflow⟩

/-- The place of a copy that is emitted is that of its instruction in the new code. -/
theorem moves_of_becomes (h : v.Lays code l) {i : Instruction} {flow : Flow} (hc : l.expansion.copies[number]? = some c)
    (hemitted : c.isEmitted = true) (hflow : l.FlowOf number c flow) (hbecomes : l.Becomes (l.startOf number) c i)
    (hcontext : setup.context (l.startOf number) = method.context (l.startOf number))
    (hhandles : ∀ type target, (∃ handler ∈ setup.handlers, handler.covers (l.startOf number) = true ∧
      handler.catchType = type ∧ handler.target = target) ↔ ∃ m, l.Catches method c type m ∧ l.startOf m = target) :
    Place.Moves l.startOf (l.placeOf method number c flow) (setup.placeOf i) := by
  have hposition := hbecomes.position_eq
  have hmoved := h.moved_of_becomes hc hemitted hbecomes hflow
  have hsize := hbecomes.size_eq
  refine ⟨hmoved, ?_, ?_, ?_, ?_, ?_⟩
  · show (setup.placeOf i).fallsThrough = (l.placeOf method number c flow).fallsThrough
    cases hbecomes <;> cases hmoved <;> rfl
  · show (setup.placeOf i).storesLocal = (l.placeOf method number c flow).storesLocal
    cases hbecomes <;> cases hmoved <;> rfl
  · show setup.context i.position = method.context (l.startOf number)
    rw [hposition]
    exact hcontext
  · show i.position + i.size = l.startOf (number + 1)
    rw [hposition, hsize, h.start_succ number c hc]
  · intro type target
    show (∃ handler ∈ setup.handlers, handler.covers i.position = true ∧ handler.catchType = type ∧
      handler.target = target) ↔ ∃ m, (c.isEmitted = true ∧ l.Catches method c type m) ∧ l.startOf m = target
    rw [hposition, hhandles type target]
    simp only [hemitted, true_and]

/-- The places of the new code are the copies that are emitted, under their positions. -/
theorem renames (h : v.Lays code l) (hemits : l.Emits out.bytes) (hb : setup.body.Laid out.bytes)
    (htable : ∀ e ∈ method.code.exceptionTable, e.handlerPc.toNat < code.length ∧ ∃ type, method.Catches e type)
    (hhandlers : (l.exceptionTable method.code.exceptionTable).mapM
      (Inference.resolveHandler { method with code := out } setup.body) = .ok setup.handlers)
    (hcontext : ∀ position, setup.context position = method.context position) :
    Renames l.startOf l.expansion.copies.size l.IsEmitted (l.IsPlace method) setup.IsPlace where
  idles := h.idles
  moves := by
    rintro n p ⟨c, flow, hc, hflow, rfl⟩ ⟨c', hc', hemitted⟩
    obtain rfl := Option.some.inj (hc.symm.trans hc')
    obtain ⟨index, i, hi, hposition, hbecomes⟩ := h.instruction_of_copy hemits hb hc hemitted
    refine ⟨setup.placeOf i, ⟨index, i, hi, hposition, rfl⟩, ?_⟩
    exact h.moves_of_becomes hc hemitted hflow hbecomes (hcontext _)
      fun type target => h.handles_iff hemits hb htable hhandlers hc hemitted
  placed := by
    rintro n q ⟨index, i, hi, hposition, rfl⟩
    have hinside := hb.position_lt_length hi
    rw [hposition, hemits.length_eq] at hinside
    -- past the copies there is only the end of the code
    have hn : n < l.expansion.copies.size := by
      refine Nat.lt_of_not_le fun hpast => ?_
      unfold Layout.startOf at hinside
      rw [Array.getElem?_eq_none (by rw [h.positions_size]; exact hpast)] at hinside
      exact Nat.lt_irrefl _ hinside
    have hc := Array.getElem?_eq_getElem hn
    obtain ⟨flow, hflow⟩ := h.exists_flowOf hemits hc
    exact ⟨_, _, flow, hc, hflow, rfl⟩
  real_unique := by
    rintro n m ⟨c, hc, hemitted⟩ ⟨c', hc', hemitted'⟩ hstart
    exact h.emitted_unique hc hemitted hc' hemitted' hstart
  place_unique := by
    rintro x q q' ⟨index, i, hi, hposition, rfl⟩ ⟨index', i', hi', hposition', rfl⟩
    obtain rfl := hb.index_eq hi hi' (hposition.trans hposition'.symm)
    rw [Option.some.inj (hi.symm.trans hi')]

theorem isPlain (h : v.Lays code l) (hemits : l.Emits out.bytes) {b : Body} (hb : b.Laid out.bytes) {index : Nat}
    {i : Instruction} (hi : b.get? index = some i) :
    (∀ target, i.flow ≠ .jsr target) ∧ ∀ slot, i.flow ≠ .ret slot := by
  obtain ⟨number, c, hc, hemitted, hstart⟩ := h.copy_of_instruction hemits hb hi
  exact (h.becomes_of_laid hemits hb hc hemitted hi hstart.symm).isPlain

/-- Where the copies can be typed, some copy is emitted. -/
theorem size_pos_of_typing (h : v.Lays code l) {entry : Frame} {types : Nat → Option Frame}
    (ht : Typing (l.IsPlace method) 0 entry types) : 0 < l.size := by
  obtain ⟨f, hf, -⟩ := ht.entered
  obtain ⟨m, g, ⟨c, hc, hemitted⟩, -⟩ := h.idles.exists_real ht hf
  exact Nat.lt_of_le_of_lt (Nat.zero_le _) (h.startOf_lt_size hc hemitted)

end Verified.Lays

/-! ## Acceptance of the new code -/

section Accepted

variable {method : Method} {v : Verified} {pool : ConstantPool} {out : Code}

variable {l : Layout} {setup setup' : Setup} {s : Session} {entry : Frame}

theorem Verified.Lays.length_lt (h : v.Lays method.code.bytes l) (hmakes : l.Makes method out) :
    out.bytes.length < 2 ^ 64 := by
  rw [hmakes.emits.length_eq]
  exact Nat.lt_trans (h.lt_word (Nat.le_refl _)) (by decide)

/-- What is needed before the first round with the new code. -/
theorem Settled.prepare_new_iff (h : Settled method v setup s) (hlays : v.Lays method.code.bytes l)
    (hmakes : l.Makes method out) :
    (∃ setup', Inference.prepare false { method with code := out } = .ok (setup', entry)) ↔
      l.IsClosed method ∧ 0 < l.size ∧ Frame.entry method.className method.isStatic method.isConstructor
        method.descriptor method.code.maxLocals.toNat = .ok entry := by
  have hnew := hlays.length_lt hmakes
  constructor
  · rintro ⟨setup', hprepare⟩
    obtain ⟨body, handlers, hbody, hsize, hhandlers, hentry, rfl⟩ := Inference.prepare_eq_ok.mp hprepare
    have hb := Body.decode_tiles hbody hnew
    change out.exceptionTable.mapM _ = _ at hhandlers
    rw [hmakes.table] at hhandlers
    rw [← hmakes.maxLocals]
    refine ⟨⟨(hlays.decode_iff hmakes.emits).mp ⟨body, hbody⟩, ?_⟩, ?_, hentry⟩
    · exact (hlays.resolved_iff hmakes.emits hb.toLaid h.table).mp ⟨handlers, hhandlers⟩
    · obtain ⟨i, hi⟩ := body.exists_get? 0 hsize
      rw [← hmakes.emits.length_eq]
      exact Nat.lt_of_le_of_lt (Nat.zero_le _) (hb.position_lt_length hi)
  · rintro ⟨hclosed, hsize, hentry⟩
    obtain ⟨body, hbody⟩ := (hlays.decode_iff hmakes.emits).mpr hclosed.named
    have hb := Body.decode_tiles hbody hnew
    obtain ⟨handlers, hhandlers⟩ := (hlays.resolved_iff hmakes.emits hb.toLaid h.table).mpr hclosed.caught
    rw [← hmakes.table] at hhandlers
    rw [← hmakes.maxLocals] at hentry
    refine ⟨_, Inference.prepare_eq_ok.mpr ⟨body, handlers, hbody, ?_, hhandlers, hentry, rfl⟩⟩
    refine Nat.pos_of_ne_zero fun hempty => ?_
    have hzero := hb.scanned.empty hempty
    rw [hmakes.emits.length_eq] at hzero
    omega

/-- With the new code set up, it can be typed exactly if the copies can. -/
theorem Settled.typing_new_iff (h : Settled method v setup s) (hlays : v.Lays method.code.bytes l)
    (hmakes : l.Makes method out) (hconstants : method.constants.GivesValues)
    (hprepare : Inference.prepare false { method with code := out } = .ok (setup', entry)) :
    setup'.IsPlain ∧ ((∃ types, Typing setup'.IsPlace 0 entry types) ↔ ∃ types, Typing (l.IsPlace method) 0 entry types) := by
  obtain ⟨hmethod, hp, -, hhandlers, -⟩ := Inference.prepare_spec (hlays.length_lt hmakes) hprepare
  have hplain := fun {index : Nat} {i : Instruction} (hi : setup'.body.get? index = some i) =>
    hlays.isPlain hmakes.emits hp.tiles.toLaid hi
  change out.exceptionTable.mapM _ = _ at hhandlers
  rw [hmakes.table] at hhandlers
  have hcontext : ∀ position, setup'.context position = method.context position := by
    intro position
    unfold Setup.context Setup.maxStack Method.context
    rw [hmethod, hmakes.maxStack]
  have hrenames := hlays.renames hmakes.emits hp.tiles.toLaid h.table hhandlers hcontext
  refine ⟨⟨?_, fun index i target hi => (hplain hi).1 target, fun index i slot hi => (hplain hi).2 slot⟩, ?_⟩
  · rw [hmethod]
    exact hconstants
  · have hiff : (∃ types, Typing setup'.IsPlace (l.startOf 0) entry types) ↔ ∃ types, Typing (l.IsPlace method) 0 entry types :=
      hrenames.typing_iff
    rwa [hlays.start_zero] at hiff

/-- **When the new code is accepted.**  The new code of a method has no subroutines, and it is accepted exactly if no copy
leads to the end of the code and every copy that control comes to can be given a frame. -/
theorem reverified_iff (hfits : method.code.bytes.length < 2 ^ 64) (hverify : method.verify = .ok v)
    (hinline : v.inline method.code pool = .ok out) (hconstants : method.constants.GivesValues) :
    ∃ l, v.layout = .ok l ∧
      (∀ v', Method.verify { method with code := out } = .ok v' → v'.hasSubroutines = false) ∧
      ((∃ v', Method.verify { method with code := out } = .ok v') ↔ l.IsClosed method ∧ l.IsTypable method) := by
  obtain ⟨setup, s, hsettled⟩ := Method.settled hfits hverify
  obtain ⟨l, hlayout, hemit, htable, hstack, hlocals⟩ := Verified.inline_eq_ok hinline
  have hlays := Verified.lays_of_layout hsettled.tiles hlayout
  have hmakes : l.Makes method out := ⟨hlays.emits_of_emit hemit, htable, hstack, hlocals⟩
  have hnew := hlays.length_lt hmakes
  refine ⟨l, hlayout, ?_, ?_⟩
  · intro v' hverify'
    obtain ⟨setup', s', hsettled'⟩ := Method.settled hnew hverify'
    apply hsettled'.hasSubroutines_eq_false
    intro index i target hi
    exact (hlays.isPlain hmakes.emits hsettled'.prepared.tiles.toLaid hi).1 target
  · constructor
    · rintro ⟨v', hverify'⟩
      obtain ⟨setup', s', hsettled'⟩ := Method.settled hnew hverify'
      obtain ⟨entry, -, -, hprepare, -⟩ := hsettled'.explores
      obtain ⟨hplain, htyping⟩ := hsettled.typing_new_iff hlays hmakes hconstants hprepare
      obtain ⟨hclosed, -, hentry⟩ := (hsettled.prepare_new_iff hlays hmakes).mp ⟨setup', hprepare⟩
      obtain ⟨types, ht⟩ := htyping.mp ((Method.accepted_iff hnew hprepare hplain).mp ⟨v', hverify'⟩)
      exact ⟨hclosed, entry, types, hentry, ht⟩
    · rintro ⟨hclosed, entry, types, hentry, ht⟩
      obtain ⟨setup', hprepare⟩ :=
        (hsettled.prepare_new_iff hlays hmakes).mpr ⟨hclosed, hlays.size_pos_of_typing ht, hentry⟩
      obtain ⟨hplain, htyping⟩ := hsettled.typing_new_iff hlays hmakes hconstants hprepare
      exact (Method.accepted_iff hnew hprepare hplain).mpr (htyping.mpr ⟨types, ht⟩)

end Accepted

/-- A body with a subroutine that pops its return address and never returns:

    0 jsr 4;  3 return;  4 pop;  5 return
-/
def poppedAddress : Method := .bare ⟨[], none⟩ 1 0 [0xa8, 0x00, 0x04, 0xb1, 0x57, 0xb1]

/-- The `jsr` becomes a `goto` that pushes nothing, so the new code is refused at its `pop`, and its copies cannot be
typed. -/
theorem popped_address_refused :
    ∃ v out l, poppedAddress.verify = .ok v ∧ v.inline poppedAddress.code .empty = .ok out ∧ v.layout = .ok l ∧
      Method.verify { poppedAddress with code := out } = .error (.located 3 .emptyStack) ∧
      ¬ (l.IsClosed poppedAddress ∧ l.IsTypable poppedAddress) := by
  obtain ⟨v, hverify, htest⟩ := @Method.exists_of_within poppedAddress 4
    (fun v => (v.inline poppedAddress.code .empty).toOption.any fun out =>
      Method.refusedWithin { poppedAddress with code := out } 4 = some (.located 3 .emptyStack)) (by decide +kernel)
  obtain ⟨out, hout, hrefused⟩ := (Option.any_eq_true _ _).mp htest
  have hinline : v.inline poppedAddress.code .empty = .ok out := toOption_eq_some.mp hout
  have hverify' : Method.verify { poppedAddress with code := out } = .error (.located 3 .emptyStack) :=
    Method.verify_of_refused (of_decide_eq_true hrefused)
  obtain ⟨l, hlayout, -, haccepted⟩ :=
    reverified_iff (by decide) hverify hinline (ConstantPool.givesValues_resolver _)
  refine ⟨v, out, l, hverify, hinline, hlayout, hverify', fun htyped => ?_⟩
  obtain ⟨v', hv'⟩ := haccepted.mpr htyped
  rw [hverify'] at hv'
  simp at hv'

end Bytecode
