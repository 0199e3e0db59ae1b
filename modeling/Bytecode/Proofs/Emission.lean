import Bytecode.Inlining.Basic
import Bytecode.Proofs.Encoding
import Bytecode.Proofs.Placement

/-!
# The new code, copy by copy

Every copy that is not left out becomes one instruction of the new code, at the position of the copy:

* `Layout.Becomes`: the instruction that a copy becomes.  Targets of branches and switches are moved to the copies
  that code in the call can go to, and a `jsr` or `ret` becomes a `goto`;
* `Verified.Lays.encodes_emitCopy`: the bytes of a copy encode that instruction;
* `Layout.Emits`: the new code holds these bytes one after the other (`Verified.Lays.emits_of_emit`).
-/

namespace Bytecode

theorem Copy.isEmitted_eq_false {c : Copy} : c.isEmitted = false ↔ c.disposition = .skip := by
  unfold Copy.isEmitted Disposition.isEmitted
  cases c.disposition <;> simp

namespace Layout

/-- The instruction that a copy becomes at a position of the new code. -/
inductive Becomes (l : Layout) (position : Nat) (c : Copy) : Instruction → Prop
  | keep {flow : Flow} (hkeep : c.disposition = .keep)
      (hflow : c.instruction.flow.Moved (fun t u => l.resolve t c.call = .ok u) flow) :
      Becomes l position c
        ⟨position, c.instruction.relocatedSize position, c.instruction.opcode, c.instruction.wide, flow⟩
  | jsr {callee : Call} {target u : Nat} {opcode : UInt8} (hcall : c.disposition = .jsrGoto callee)
      (hflow : c.instruction.flow = .jsr target) (htarget : l.resolve target callee = .ok u)
      (hopcode : opcode = if c.instruction.opcode = Opcode.jsrW then Opcode.gotoW else Opcode.goto) :
      Becomes l position c ⟨position, c.instruction.size, opcode, false, .branch .goto u⟩
  | ret {target : Nat} (hret : c.disposition = .retGoto target) :
      Becomes l position c ⟨position, 3, Opcode.goto, false, .branch .goto (l.positionOf target)⟩

theorem Becomes.position_eq {l : Layout} {position : Nat} {c : Copy} {i : Instruction} (h : l.Becomes position c i) :
    i.position = position := by
  cases h <;> rfl

theorem Becomes.size_eq {l : Layout} {position : Nat} {c : Copy} {i : Instruction} (h : l.Becomes position c i) :
    i.size = c.sizeAt position := by
  unfold Copy.sizeAt Disposition.sizeAt
  cases h with
  | keep hkeep => rw [hkeep]
  | jsr hcall => rw [hcall]
  | ret hret => rw [hret]

/-! ## One copy -/

theorem encodes_goto {source target : Nat} {piece : List UInt8} (hsource : source < 2 ^ 63) (htarget : target < 2 ^ 63)
    (h : goto source target = .ok piece) :
    Instruction.Encodes source piece ⟨source, 3, Opcode.goto, false, .branch .goto target⟩ := by
  unfold goto at h
  obtain ⟨d, hd, h⟩ := bind_eq_ok.mp h
  obtain rfl := pure_eq_ok.mp h
  have hshort : Instruction.IsShortBranch Opcode.goto := by
    unfold Instruction.IsShortBranch
    decide
  exact Instruction.encodes_shortBranch hshort (Instruction.shortOffset_eq_ok hsource htarget hd)

theorem encodes_gotoWide {source target : Nat} {piece : List UInt8} (hsource : source < 2 ^ 63)
    (htarget : target < 2 ^ 63) (h : gotoWide source target = .ok piece) :
    Instruction.Encodes source piece ⟨source, 5, Opcode.gotoW, false, .branch .goto target⟩ := by
  unfold gotoWide at h
  obtain ⟨d, hd, h⟩ := bind_eq_ok.mp h
  obtain rfl := pure_eq_ok.mp h
  exact Instruction.encodes_longBranch (Instruction.longOffset_eq_ok hsource htarget hd)

end Layout

namespace Verified.Lays

variable {v : Verified} {code : List UInt8} {l : Layout}

theorem positionOf_le (h : v.Lays code l) (number : Nat) : l.positionOf number ≤ l.size := by
  by_cases hlt : number < l.expansion.copies.size
  · rw [h.positionOf_eq (Array.getElem?_eq_getElem hlt), ← h.start_size]
    exact h.start_mono (Nat.le_of_lt hlt) (Nat.le_refl _)
  · unfold Layout.positionOf
    rw [Array.getElem?_eq_none (by rw [h.positions_size]; omega)]
    exact Nat.zero_le _

theorem resolve_le (h : v.Lays code l) {target u : Nat} {source : Call} (hu : l.resolve target source = .ok u) :
    u ≤ l.size := by
  obtain ⟨number, -, rfl⟩ := map_eq_ok.mp hu
  exact h.positionOf_le number

theorem lt_word (h : v.Lays code l) {u : Nat} (hu : u ≤ l.size) : u < 2 ^ 63 := by
  have hsize := h.size_le
  unfold Layout.maxCodeLength at hsize
  omega

/-- Where the flow of a copy that is kept goes, and a `goto` in its place, is inside the new code or its end. -/
theorem targets_le (h : v.Lays code l) {position : Nat} {c : Copy} {i : Instruction} (hi : l.Becomes position c i) :
    ∀ t ∈ i.targets, t ≤ l.size := by
  intro t ht
  cases hi with
  | @keep flow hkeep hflow =>
    rw [Instruction.targets_eq] at ht
    obtain ⟨k, hk⟩ := List.mem_iff_getElem?.mp ht
    obtain ⟨old, -, hmoved⟩ := forall₂_getElem? hflow.forall₂_targets hk
    exact h.resolve_le hmoved
  | jsr hcall hflow htarget hopcode =>
    obtain rfl : t = _ := by simpa [Instruction.targets] using ht
    exact h.resolve_le htarget
  | ret hret =>
    obtain rfl : t = _ := by simpa [Instruction.targets] using ht
    exact h.positionOf_le _

/-- The bytes of a copy that is not left out encode the instruction that it becomes. -/
theorem encodes_emitCopy (h : v.Lays code l) {number position : Nat} {c : Copy} {piece : List UInt8}
    (hc : l.expansion.copies[number]? = some c) (hposition : position ≤ l.size) (hemitted : c.isEmitted = true)
    (hpiece : l.emitCopy code.toArray (c, position) = .ok piece) :
    ∃ i, l.Becomes position c i ∧ Instruction.Encodes position piece i := by
  have hcopy := h.isCopy number c hc
  have hdecodes := h.tiles.decodes hcopy.get
  have hsource := h.lt_word hposition
  unfold Layout.emitCopy at hpiece
  dsimp only at hpiece
  cases hdisposition : c.disposition with
  | skip => simp [Copy.isEmitted, Disposition.isEmitted, hdisposition] at hemitted
  | keep =>
    simp only [hdisposition] at hpiece
    have hrelocate : c.instruction.relocated position (fun target =>
        (l.resolve target c.call).mapError fun e => VerifyError.located c.position e.fault) = .ok piece →
        ∃ i, l.Becomes position c i ∧ Instruction.Encodes position piece i := by
      intro hrelocated
      obtain ⟨flow, hmoved, hencodes⟩ := Instruction.encodes_relocated hdecodes hsource
        (fun t _ u hu => h.lt_word (h.resolve_le (mapError_eq_ok.mp hu))) hrelocated
      exact ⟨_, .keep hdisposition (hmoved.mono fun t _ u hu => mapError_eq_ok.mp hu), hencodes⟩
    cases hflow : c.instruction.flow with
    | plain op =>
      simp only [hflow] at hpiece
      have hlength : c.instruction.size ≤ (code.drop c.instruction.position).length := by
        have hnext := h.tiles.next_le hcopy.get
        unfold Instruction.next at hnext
        rw [List.length_drop]
        omega
      have hbytes : (code.drop c.instruction.position).take c.instruction.size = piece := by
        rw [← Except.ok.inj hpiece, Array.toList_extract, List.extract_eq_take_drop]
        unfold Instruction.next
        rw [Nat.add_sub_cancel_left]
      have hsize : c.instruction.relocatedSize position = c.instruction.size := by
        simp [Instruction.relocatedSize, hflow]
      have hencodes := Instruction.encodes_copied hdecodes hflow hlength position
      rw [hbytes] at hencodes
      refine ⟨_, @Layout.Becomes.keep l position c c.instruction.flow hdisposition ?_, ?_⟩
      · rw [hflow]
        exact .plain op
      · rw [hsize]
        exact hencodes
    | branch kind target =>
      simp only [hflow] at hpiece
      exact hrelocate hpiece
    | select default cases =>
      simp only [hflow] at hpiece
      exact hrelocate hpiece
    | jsr target => simp [hflow] at hpiece
    | ret index => simp [hflow] at hpiece
  | jsrGoto callee =>
    simp only [hdisposition] at hpiece
    cases hflow : c.instruction.flow with
    | jsr target =>
      simp only [hflow] at hpiece
      obtain ⟨u, hu, hpiece⟩ := bind_eq_ok.mp hpiece
      have htarget := h.lt_word (h.resolve_le hu)
      rcases hdecodes.jsr_inv hflow with ⟨hopcode, hsize⟩ | ⟨hopcode, hsize⟩
      · rw [if_neg (by rw [hopcode]; decide)] at hpiece
        have hencodes := Layout.encodes_goto hsource htarget hpiece
        rw [← hsize] at hencodes
        exact ⟨_, .jsr hdisposition hflow hu (by rw [hopcode]; rfl), hencodes⟩
      · rw [if_pos hopcode] at hpiece
        have hencodes := Layout.encodes_gotoWide hsource htarget hpiece
        rw [← hsize] at hencodes
        exact ⟨_, .jsr hdisposition hflow hu (by rw [hopcode]; rfl), hencodes⟩
    | plain op => simp [hflow] at hpiece
    | branch kind target => simp [hflow] at hpiece
    | select default cases => simp [hflow] at hpiece
    | ret index => simp [hflow] at hpiece
  | retGoto target =>
    simp only [hdisposition] at hpiece
    exact ⟨_, .ret hdisposition, Layout.encodes_goto hsource (h.lt_word (h.positionOf_le target)) hpiece⟩

/-! ## All copies -/

/-- A copy has as many bytes as it takes up. -/
theorem length_emitCopy (h : v.Lays code l) {number position : Nat} {c : Copy} {piece : List UInt8}
    (hc : l.expansion.copies[number]? = some c) (hposition : position ≤ l.size)
    (hpiece : l.emitCopy code.toArray (c, position) = .ok piece) : piece.length = c.sizeAt position := by
  by_cases hemitted : c.isEmitted = true
  · obtain ⟨i, hbecomes, hencodes⟩ := h.encodes_emitCopy hc hposition hemitted hpiece
    rw [hencodes.length_eq, hbecomes.size_eq]
  · have hskip := Copy.isEmitted_eq_false.mp (Bool.not_eq_true _ ▸ hemitted)
    unfold Layout.emitCopy at hpiece
    unfold Copy.sizeAt Disposition.sizeAt
    simp only [hskip] at hpiece ⊢
    obtain rfl := Except.ok.inj hpiece
    rfl

theorem getElem?_toList (h : v.Lays code l) {number : Nat} {c : Copy} (hc : l.expansion.copies[number]? = some c) :
    l.toList[number]? = some (c, l.startOf number) := by
  have hlt : number < l.positions.size := by
    rw [h.positions_size]
    exact (Array.getElem?_eq_some_iff.mp hc).1
  unfold Layout.toList Layout.startOf
  rw [List.getElem?_zip_eq_some]
  refine ⟨by rw [Array.getElem?_toList]; exact hc, ?_⟩
  rw [Array.getElem?_toList, Array.getElem?_eq_getElem hlt]
  rfl

theorem length_toList (h : v.Lays code l) : l.toList.length = l.expansion.copies.size := by
  unfold Layout.toList
  rw [List.length_zip, Array.length_toList, Array.length_toList, h.positions_size, Nat.min_self]

section Pieces

variable {pieces : List (List UInt8)} {number : Nat} {piece : List UInt8}

theorem length_pieces (h : v.Lays code l) (hpieces : l.toList.mapM (l.emitCopy code.toArray) = .ok pieces) :
    pieces.length = l.expansion.copies.size := by
  rw [← (mapM_eq_ok.mp hpieces).length_eq, h.length_toList]

/-- Every piece is that of a copy, emitted at its start. -/
theorem copy_of_piece (h : v.Lays code l) (hpieces : l.toList.mapM (l.emitCopy code.toArray) = .ok pieces)
    (hpiece : pieces[number]? = some piece) :
    ∃ c, l.expansion.copies[number]? = some c ∧ l.emitCopy code.toArray (c, l.startOf number) = .ok piece := by
  have hlt : number < l.expansion.copies.size := by
    rw [← h.length_pieces hpieces]
    exact (List.getElem?_eq_some_iff.mp hpiece).1
  obtain ⟨placed, hplaced, hemitted⟩ := forall₂_getElem? (mapM_eq_ok.mp hpieces) hpiece
  have hc := Array.getElem?_eq_getElem hlt
  rw [h.getElem?_toList hc] at hplaced
  obtain rfl := Option.some.inj hplaced
  exact ⟨_, hc, hemitted⟩

theorem startOf_le (h : v.Lays code l) (hnumber : number ≤ l.expansion.copies.size) : l.startOf number ≤ l.size := by
  rw [← h.start_size]
  exact h.start_mono hnumber (Nat.le_refl _)

/-- When a copy comes to be written, the bytes in front are as many as its start tells. -/
theorem length_front (h : v.Lays code l) (hpieces : l.toList.mapM (l.emitCopy code.toArray) = .ok pieces)
    (hnumber : number ≤ pieces.length) : (pieces.take number).flatten.length = l.startOf number := by
  induction number with
  | zero =>
    rw [h.start_zero]
    rfl
  | succ number ih =>
    have hget : pieces[number]? = some pieces[number] := List.getElem?_eq_getElem (by omega)
    obtain ⟨c, hc, hemitted⟩ := h.copy_of_piece hpieces hget
    have hstart := h.startOf_le (Nat.le_of_lt (Array.getElem?_eq_some_iff.mp hc).1)
    have hlength := h.length_emitCopy hc hstart hemitted
    rw [List.take_add_one, hget, List.flatten_append, List.length_append, ih (by omega), h.start_succ number c hc,
      ← hlength]
    simp

theorem drop_flatten (h : v.Lays code l) (hpieces : l.toList.mapM (l.emitCopy code.toArray) = .ok pieces)
    (hnumber : number ≤ pieces.length) : pieces.flatten.drop (l.startOf number) = (pieces.drop number).flatten := by
  have hsplit : pieces.flatten = (pieces.take number).flatten ++ (pieces.drop number).flatten := by
    rw [← List.flatten_append, List.take_append_drop]
  rw [hsplit, List.drop_left' (h.length_front hpieces hnumber)]

end Pieces

end Verified.Lays

/-- The new code holds the bytes of the copies one after the other. -/
structure Layout.Emits (l : Layout) (bytes : List UInt8) : Prop where
  length_eq : bytes.length = l.size
  piece : ∀ (number : Nat) (c : Copy), l.expansion.copies[number]? = some c → c.isEmitted = true →
    ∃ i piece, l.Becomes (l.startOf number) c i ∧ Instruction.Encodes (l.startOf number) piece i ∧
      bytes.drop (l.startOf number) = piece ++ bytes.drop (l.startOf (number + 1))

theorem Layout.emit_eq_ok {l : Layout} {code bytes : List UInt8} :
    l.emit code = .ok bytes ↔
      ∃ pieces, l.toList.mapM (l.emitCopy code.toArray) = .ok pieces ∧ pieces.flatten = bytes := by
  unfold emit
  rw [bind_eq_ok]
  simp only [pure_eq_ok]

theorem Verified.Lays.emits_of_emit {v : Verified} {code bytes : List UInt8} {l : Layout} (h : v.Lays code l)
    (hemit : l.emit code = .ok bytes) : l.Emits bytes := by
  obtain ⟨pieces, hpieces, rfl⟩ := Layout.emit_eq_ok.mp hemit
  have hcount := h.length_pieces hpieces
  refine ⟨?_, ?_⟩
  · have hlast := h.length_front hpieces (Nat.le_refl _)
    rwa [List.take_length, hcount, h.start_size] at hlast
  · intro number c hc hemitted
    have hlt : number < pieces.length := by
      rw [hcount]
      exact (Array.getElem?_eq_some_iff.mp hc).1
    obtain ⟨c', hc', hbytes⟩ := h.copy_of_piece hpieces (List.getElem?_eq_getElem hlt)
    obtain rfl := Option.some.inj (hc.symm.trans hc')
    have hstart := h.startOf_le (Nat.le_of_lt (hcount ▸ hlt))
    obtain ⟨i, hbecomes, hencodes⟩ := h.encodes_emitCopy hc hstart hemitted hbytes
    refine ⟨i, pieces[number], hbecomes, hencodes, ?_⟩
    rw [h.drop_flatten hpieces (Nat.le_of_lt hlt), h.drop_flatten hpieces hlt, List.drop_eq_getElem_cons hlt,
      List.flatten_cons]

/-- Every copy that is not left out becomes an instruction that is decoded in its place, in code that its targets are
inside of. -/
theorem Verified.Lays.decodes_of_emits {v : Verified} {code bytes : List UInt8} {l : Layout} (h : v.Lays code l)
    (hemits : l.Emits bytes) {number : Nat} {c : Copy} (hc : l.expansion.copies[number]? = some c)
    (hemitted : c.isEmitted = true) :
    ∃ i, l.Becomes (l.startOf number) c i ∧ ∀ length, l.size ≤ length → (∀ t ∈ i.targets, t < length) →
      Instruction.Decodes length (l.startOf number) (bytes.drop (l.startOf number)) i := by
  obtain ⟨i, piece, hbecomes, hencodes, hbytes⟩ := hemits.piece number c hc hemitted
  refine ⟨i, hbecomes, ?_⟩
  intro length hlength htargets
  rw [hbytes]
  apply hencodes.decodes _ _ htargets
  have hlt : number < l.expansion.copies.size := (Array.getElem?_eq_some_iff.mp hc).1
  have hnext := h.start_mono hlt (Nat.le_refl _)
  rw [h.start_size, h.start_succ number c hc] at hnext
  rw [hbecomes.size_eq]
  omega

/-- What the new code of a method is made of. -/
theorem Verified.inline_eq_ok {v : Verified} {code out : Code} {pool : ConstantPool} (h : v.inline code pool = .ok out) :
    ∃ l, v.layout = .ok l ∧ l.emit code.bytes = .ok out.bytes ∧
      out.exceptionTable = l.exceptionTable code.exceptionTable ∧ out.maxStack = code.maxStack ∧
      out.maxLocals = code.maxLocals := by
  unfold inline inlineTraced at h
  cases hlayout : v.layout with
  | error e => simp [hlayout] at h
  | ok l =>
    simp only [hlayout] at h
    unfold Layout.code at h
    obtain ⟨bytes, hbytes, h⟩ := bind_eq_ok.mp h
    obtain ⟨attributes, -, h⟩ := bind_eq_ok.mp h
    obtain rfl := pure_eq_ok.mp h
    exact ⟨l, rfl, mapError_eq_ok.mp hbytes, rfl, rfl, rfl⟩

end Bytecode
