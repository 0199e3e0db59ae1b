import Bytecode.Proofs.EncodedLength
import Bytecode.Proofs.ExceptionRanges
import Bytecode.Proofs.Rounds

/-!
# The new code is what was laid out

Sizes and positions of copies are computed before any byte is written.  Writing then agrees with them:

* `Copy.opening`, `Copy.newOpcode`: the bytes that a copy starts with, and the opcode among them;
* `Layout.Becomes.opening_prefix`: a copy is written with its opening in front;
* `Layout.Becomes.not_ofSubroutine`: no copy is written as a `jsr`, `jsr_w` or `ret`;
* `Verified.Lays.walk_emitted`: stepping through the new code by the lengths of its instructions comes to the copies
  that are emitted, one after the other, and to nothing else.

`emitted_as_laid_out` puts them together for a method that is accepted and inlined.
-/

namespace Bytecode

/-! ## Opcodes of subroutines -/

/-- Opcodes that call a subroutine or return from one. -/
def Opcode.OfSubroutine (opcode : UInt8) : Prop := opcode = jsr ∨ opcode = jsrW ∨ opcode = ret

instance : DecidablePred Opcode.OfSubroutine := fun opcode =>
  inferInstanceAs (Decidable (opcode = Opcode.jsr ∨ opcode = Opcode.jsrW ∨ opcode = Opcode.ret))

namespace Instruction

theorem not_ofSubroutine_of_isShortBranch {opcode : UInt8} (h : IsShortBranch opcode) :
    ¬ Opcode.OfSubroutine opcode := by
  unfold IsShortBranch at h
  rintro (rfl | rfl | rfl)
  all_goals
    revert h
    decide

/-- Of the opcodes that can be widened, only `ret` is one of subroutines. -/
theorem not_ofSubroutine_of_widened {input rest : List UInt8} {size : Nat} {opcode : UInt8} {flow : Flow}
    (h : widened input = .ok ((size, opcode, flow), rest)) (hret : ∀ slot, flow ≠ .ret slot) :
    ¬ Opcode.OfSubroutine opcode := by
  unfold widened at h
  obtain ⟨found, _, -, h⟩ := state_bind_eq_ok.mp h
  obtain ⟨index, _, -, h⟩ := state_bind_eq_ok.mp h
  split at h
  · rename_i hiinc
    obtain ⟨amount, _, -, h⟩ := state_bind_eq_ok.mp h
    simp only [state_pure_eq_ok, Prod.mk.injEq] at h
    rw [← h.1.2.1, hiinc]
    decide
  · split at h
    · simp only [state_pure_eq_ok, Prod.mk.injEq] at h
      exact absurd h.1.2.2.symm (hret index)
    · split at h
      · rename_i hload
        simp only [state_pure_eq_ok, Prod.mk.injEq] at h
        rw [← h.1.2.1]
        rintro (rfl | rfl | rfl)
        all_goals
          revert hload
          decide
      · split at h
        · rename_i hstore
          simp only [state_pure_eq_ok, Prod.mk.injEq] at h
          rw [← h.1.2.1]
          rintro (rfl | rfl | rfl)
          all_goals
            revert hstore
            decide
        · simp at h

/-- An instruction that neither calls a subroutine nor returns from one has no opcode that does. -/
theorem Decodes.not_ofSubroutine {length position : Nat} {bytes : List UInt8} {i : Instruction}
    (h : Decodes length position bytes i) (hjsr : ∀ target, i.flow ≠ .jsr target) (hret : ∀ slot, i.flow ≠ .ret slot) :
    ¬ Opcode.OfSubroutine i.opcode := by
  cases h with
  | widened h => exact not_ofSubroutine_of_widened h hret
  | @switch operands rest opcode size default cases hopcode hpadding h =>
    show ¬ Opcode.OfSubroutine opcode
    rcases hopcode with rfl | rfl <;> decide
  | fixed hopcode hsize hfits h =>
    cases h with
    | shortBranch hshort => exact not_ofSubroutine_of_isShortBranch hshort
    | longBranch =>
      show ¬ Opcode.OfSubroutine Opcode.gotoW
      decide
    | shortCall => simp at hjsr
    | longCall => simp at hjsr
    | ret => simp at hret
    | plain hbranch hothers =>
      rintro (rfl | rfl | rfl)
      · exact hothers.1 rfl
      · exact hothers.2.2.1 rfl
      · exact hothers.2.2.2 rfl

end Instruction

/-! ## What a copy starts with -/

namespace Copy

/-- The opcode that a copy is written with; behind a `wide`, the one that is widened. -/
def newOpcode (c : Copy) : UInt8 :=
  match c.disposition with
  | .keep | .skip => c.instruction.opcode
  | .jsrGoto _ => if c.instruction.opcode = Opcode.jsrW then Opcode.gotoW else Opcode.goto
  | .retGoto _ => Opcode.goto

/-- The bytes that a copy starts with. -/
def opening (c : Copy) : List UInt8 :=
  match c.disposition with
  | .skip => []
  | .keep => if c.instruction.wide then [Opcode.wide, c.newOpcode] else [c.newOpcode]
  | .jsrGoto _ | .retGoto _ => [c.newOpcode]

end Copy

namespace Layout

variable {l : Layout} {position length : Nat} {c : Copy} {i : Instruction} {bytes : List UInt8}

theorem Becomes.opcode_eq (h : l.Becomes position c i) : i.opcode = c.newOpcode := by
  unfold Copy.newOpcode
  cases h with
  | keep hkeep => rw [hkeep]
  | jsr hcall hflow htarget hopcode => rw [hcall, hopcode]
  | ret hret => rw [hret]

theorem Becomes.opening_prefix (h : l.Becomes position c i) (hdecodes : i.Decodes length position bytes) :
    c.opening <+: bytes := by
  have hstarts := hdecodes.starts
  rw [h.opcode_eq] at hstarts
  unfold Copy.opening
  cases h with
  | keep hkeep => rwa [hkeep]
  | jsr hcall => rwa [hcall]
  | ret hret => rwa [hret]

theorem Becomes.not_ofSubroutine (h : l.Becomes position c i) (hdecodes : i.Decodes length position bytes) :
    ¬ Opcode.OfSubroutine c.newOpcode := by
  rw [← h.opcode_eq]
  have hplain : (∀ target, i.flow ≠ .jsr target) ∧ ∀ slot, i.flow ≠ .ret slot := by
    cases h with
    | keep hkeep hflow => exact hflow.isPlain
    | jsr => simp
    | ret => simp
  exact hdecodes.not_ofSubroutine hplain.1 hplain.2

/-- The new code is written as it was laid out, in pieces for the copies. -/
structure WritesAsLaidOut (l : Layout) (code bytes : List UInt8) (pieces : List (List UInt8)) : Prop where
  pieces_eq : l.toList.mapM (l.emitCopy code.toArray) = .ok pieces
  bytes_eq : bytes = pieces.flatten
  length_eq : bytes.length = l.size
  length_le : bytes.length ≤ 65535
  /-- When the turn of a copy comes, as many bytes are written as its position tells, -/
  front : ∀ (number : Nat) (c : Copy), l.expansion.copies[number]? = some c →
    (pieces.take number).flatten.length = l.positionOf number
  /-- and then as many as its size there. -/
  size : ∀ (number : Nat) (c : Copy), l.expansion.copies[number]? = some c →
    pieces[number]?.map List.length = some (c.sizeAt (l.positionOf number))
  opening : ∀ (number : Nat) (c : Copy), l.expansion.copies[number]? = some c →
    c.opening <+: bytes.drop (l.positionOf number)
  /-- Stepping through the new code comes to the copies that are emitted, in order. -/
  walk : Instruction.walk 0 bytes = some (l.emitted.map fun placed => (placed.2, placed.1.newOpcode))
  /-- None of them is a `jsr`, `jsr_w` or `ret`. -/
  noSubroutine : ∀ placed ∈ l.emitted, ¬ Opcode.OfSubroutine placed.1.newOpcode

end Layout

namespace Verified.Lays

variable {v : Verified} {code bytes : List UInt8} {l : Layout} {number : Nat} {c : Copy}

/-- A copy that is emitted stands in the new code as the instruction that it becomes.  Its targets are at most the end
of the code, so it is decoded if the code is taken to go on. -/
theorem decodes_emitted (h : v.Lays code l) (hemits : l.Emits bytes) (hc : l.expansion.copies[number]? = some c)
    (hemitted : c.isEmitted = true) :
    ∃ i, l.Becomes (l.startOf number) c i ∧
      i.Decodes (l.size + 1) (l.startOf number) (bytes.drop (l.startOf number)) := by
  obtain ⟨i, hbecomes, hdecodes⟩ := h.decodes_of_emits hemits hc hemitted
  exact ⟨i, hbecomes,
    hdecodes (l.size + 1) (Nat.le_succ _) fun t ht => Nat.lt_succ_of_le (h.targets_le hbecomes t ht)⟩

theorem drop_toList (h : v.Lays code l) (hc : l.expansion.copies[number]? = some c) :
    l.toList.drop number = (c, l.startOf number) :: l.toList.drop (number + 1) := by
  have hlt : number < l.toList.length := by
    rw [h.length_toList]
    exact (Array.getElem?_eq_some_iff.mp hc).1
  have hget := h.getElem?_toList hc
  rw [List.getElem?_eq_getElem hlt] at hget
  rw [List.drop_eq_getElem_cons hlt, Option.some.inj hget]

/-- Stepping through the new code from where a copy starts. -/
theorem walk_drop (h : v.Lays code l) (hemits : l.Emits bytes) (hnumber : number ≤ l.expansion.copies.size) :
    Instruction.walk (l.startOf number) (bytes.drop (l.startOf number)) =
      some (((l.toList.drop number).filter fun placed => placed.1.isEmitted).map
        fun placed => (placed.2, placed.1.newOpcode)) := by
  induction hrest : l.expansion.copies.size - number generalizing number with
  | zero =>
    obtain rfl : number = l.expansion.copies.size := by omega
    rw [h.start_size, ← hemits.length_eq, List.drop_length, ← h.length_toList, List.drop_length]
    exact Instruction.walk_nil _
  | succ rest ih =>
    have hc := Array.getElem?_eq_getElem (show number < l.expansion.copies.size by omega)
    have hnext := ih (show number + 1 ≤ _ by omega) (by omega)
    rw [h.drop_toList hc]
    cases hemitted : (l.expansion.copies[number]).isEmitted with
    | false =>
      rw [List.filter_cons_of_neg (by simp [hemitted]), ← h.startOf_succ_of_skip hc hemitted]
      exact hnext
    | true =>
      obtain ⟨i, hbecomes, hdecodes⟩ := h.decodes_emitted hemits hc hemitted
      have hsucc : l.startOf number + i.size = l.startOf (number + 1) := by
        rw [h.start_succ number _ hc, hbecomes.size_eq]
      have hsize : i.size ≤ (bytes.drop (l.startOf number)).length := by
        have hend := h.startOf_le (show number + 1 ≤ _ by omega)
        rw [List.length_drop, hemits.length_eq]
        omega
      rw [List.filter_cons_of_pos (by simp [hemitted]), hdecodes.walk_eq hsize, List.drop_drop, hsucc, hnext,
        hbecomes.opcode_eq]
      rfl

theorem walk_emitted (h : v.Lays code l) (hemits : l.Emits bytes) :
    Instruction.walk 0 bytes = some (l.emitted.map fun placed => (placed.2, placed.1.newOpcode)) := by
  have hwalk := h.walk_drop hemits (Nat.zero_le _)
  rwa [h.start_zero, List.drop_zero, List.drop_zero] at hwalk

theorem writesAsLaidOut (h : v.Lays code l) {pieces : List (List UInt8)}
    (hpieces : l.toList.mapM (l.emitCopy code.toArray) = .ok pieces) :
    l.WritesAsLaidOut code pieces.flatten pieces := by
  have hemits := h.emits_of_emit (Layout.emit_eq_ok.mpr ⟨pieces, hpieces, rfl⟩)
  have hlt : ∀ {number : Nat} {c : Copy}, l.expansion.copies[number]? = some c → number < pieces.length := by
    intro number c hc
    rw [h.length_pieces hpieces]
    exact (Array.getElem?_eq_some_iff.mp hc).1
  refine ⟨hpieces, rfl, hemits.length_eq, hemits.length_eq ▸ h.size_le, ?_, ?_, ?_, h.walk_emitted hemits, ?_⟩
  · intro number c hc
    rw [h.positionOf_eq hc]
    exact h.length_front hpieces (Nat.le_of_lt (hlt hc))
  · intro number c hc
    have hpiece := List.getElem?_eq_getElem (hlt hc)
    obtain ⟨c', hc', hemitted⟩ := h.copy_of_piece hpieces hpiece
    obtain rfl := Option.some.inj (hc.symm.trans hc')
    have hstart := h.startOf_le (Nat.le_of_lt (Array.getElem?_eq_some_iff.mp hc).1)
    rw [hpiece, Option.map_some, h.length_emitCopy hc hstart hemitted, h.positionOf_eq hc]
  · intro number c hc
    rw [h.positionOf_eq hc]
    cases hemitted : c.isEmitted with
    | false =>
      have hskip := Copy.isEmitted_eq_false.mp hemitted
      unfold Copy.opening
      rw [hskip]
      exact List.nil_prefix
    | true =>
      obtain ⟨i, hbecomes, hdecodes⟩ := h.decodes_emitted hemits hc hemitted
      exact hbecomes.opening_prefix hdecodes
  · rintro ⟨c, position⟩ hplaced
    obtain ⟨number, hc, hemitted, -⟩ := h.mem_emitted_iff.mp hplaced
    obtain ⟨i, hbecomes, hdecodes⟩ := h.decodes_emitted hemits hc hemitted
    exact hbecomes.not_ofSubroutine hdecodes

end Verified.Lays

/-- The new code of a method is written as it was laid out: every copy at its position, with its size and opcode, and
none as an instruction of subroutines. -/
theorem emitted_as_laid_out {method : Method} {v : Verified} {pool : ConstantPool} {out : Code}
    (hfits : method.code.bytes.length < 2 ^ 64) (hverify : method.verify = .ok v)
    (hinline : v.inline method.code pool = .ok out) :
    ∃ l pieces, v.layout = .ok l ∧ l.WritesAsLaidOut method.code.bytes out.bytes pieces := by
  obtain ⟨setup, s, hsettled⟩ := Method.settled hfits hverify
  obtain ⟨l, hlayout, hemit, -⟩ := Verified.inline_eq_ok hinline
  obtain ⟨pieces, hpieces, hbytes⟩ := Layout.emit_eq_ok.mp hemit
  refine ⟨l, pieces, hlayout, ?_⟩
  rw [← hbytes]
  exact (Verified.lays_of_layout hsettled.tiles hlayout).writesAsLaidOut hpieces

/-- A body with a subroutine whose entry is behind the rest of it, called by a `jsr_w` and a `jsr`:

    0 iconst_0;  1 ifeq 9;  4 jsr_w 28;  9 jsr 28;  12 return;  13 nop;  14 iconst_0;  15 lookupswitch 24;
    24 wide ret 0;  28 astore_0;  29 goto 14
-/
def lateEntry : Method := .bare ⟨[], none⟩ 1 1
  [0x03, 0x99, 0x00, 0x08, 0xc9, 0x00, 0x00, 0x00, 0x18, 0xa8, 0x00, 0x13, 0xb1, 0x00, 0x03, 0xab, 0x00, 0x00, 0x00,
    0x09, 0x00, 0x00, 0x00, 0x00, 0xc4, 0xa9, 0x00, 0x00, 0x4b, 0xa7, 0xff, 0xf1]

/-- The `nop` is never reached, so the switch is padded in the new code; the widened `ret` gets shorter. -/
theorem emitted_as_laid_out_lateEntry :
    ∃ v out l pieces, lateEntry.verify = .ok v ∧ v.inline lateEntry.code .empty = .ok out ∧ v.layout = .ok l ∧
      l.WritesAsLaidOut lateEntry.code.bytes out.bytes pieces ∧
      (l.emitted.map fun placed => (placed.2, placed.1.newOpcode)) =
        [(0, 0x03), (1, 0x99), (4, 0xc8), (9, 0x03), (10, 0xab), (20, 0xa7), (23, 0xa7), (26, 0xa7), (29, 0x03),
          (30, 0xab), (40, 0xa7), (43, 0xa7), (46, 0xb1)] := by
  obtain ⟨v, l, hverify, hlayout, htest⟩ := @Method.exists_layout_of_within lateEntry 20
    (fun v l => (v.inline lateEntry.code .empty).toOption.isSome &&
      (l.emitted.map fun placed => (placed.2, placed.1.newOpcode)) =
        [(0, 0x03), (1, 0x99), (4, 0xc8), (9, 0x03), (10, 0xab), (20, 0xa7), (23, 0xa7), (26, 0xa7), (29, 0x03),
          (30, 0xab), (40, 0xa7), (43, 0xa7), (46, 0xb1)]) (by decide +kernel)
  simp only [Bool.and_eq_true, decide_eq_true_eq, Option.isSome_iff_exists] at htest
  obtain ⟨⟨out, hout⟩, hsteps⟩ := htest
  have hinline : v.inline lateEntry.code .empty = .ok out := toOption_eq_some.mp hout
  obtain ⟨l', pieces, hlayout', hwrites⟩ := emitted_as_laid_out (by decide) hverify hinline
  obtain rfl := Except.ok.inj (hlayout.symm.trans hlayout')
  exact ⟨v, out, l, pieces, hverify, hinline, hlayout, hwrites, hsteps⟩

end Bytecode
