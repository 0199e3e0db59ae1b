import Bytecode.Proofs.ClassConversion
import Bytecode.Proofs.InliningOutcome
import Bytecode.Proofs.Reencoding
import Bytecode.Proofs.ReturnStores

/-!
# Code without subroutines stays as it is

Where no call of a subroutine is reached and nothing is unreachable, there is one copy of each instruction, in the
order of the code.  It is kept and stays where it was, and so do all positions that the code and its handlers name.

* `Settled.returnStores_eq`: without subroutines, no return address is stored;
* `Verified.Plain`: what is known of a method whose instructions all run outside of subroutines;
* `Verified.Plain.layout_eq`: its copies are laid out where the instructions were;
* `Verified.Plain.emit_eq`, `Verified.Plain.exceptionTable_eq`: the new bytes and handlers are the old ones;
* `plain_code_kept`: inlining gives back the code, with zeros for the padding of switches.
-/

namespace Bytecode

/-- Without subroutines, no return address is stored: there are none on the stack. -/
theorem Settled.returnStores_eq {method : Method} {v : Verified} {setup : Setup} {s : Session}
    (h : Settled method v setup s) (hvalues : method.constants.GivesValues) (hcalls : v.hasSubroutines = false) (p : Nat) :
    v.returnStores.contains p = false := by
  obtain ⟨entry, -, hfits, hprepare, hanalyse⟩ := h.explores
  obtain ⟨hcaught, hentry⟩ := Inference.regular_of_prepare hprepare
  rw [h.verified, ← Bool.not_eq_true]
  intro hstored
  obtain ⟨index, i, op, frame, u, hu, -, -, -, hstores⟩ := (Inference.passes_analyse h.prepared hanalyse).stored hstored
  obtain ⟨slot, callee, -, hhead⟩ := Session.storesReturnAddress_iff.mp hstores
  -- the look with a return address on the stack leaves its subroutine registered up to the end
  have hframe := (hu.regular hcaught hentry).2 index frame rfl
  have hmem := List.mem_append_right frame.locals (List.mem_of_mem_head? hhead)
  have hbacked := hframe.backed (h.method_eq.symm ▸ hvalues) _ hmem callee rfl
  obtain ⟨sub, hsub⟩ := Option.isSome_iff_exists.mp hbacked
  obtain ⟨sub', hsub', -⟩ := (hu.remembers h.prepared hfits hanalyse).registry callee sub hsub
  rw [h.hasSubroutines_iff.mpr ⟨callee, sub', hsub'⟩] at hcalls
  simp at hcalls

/-! ## Copies that stay in place -/

/-- What is known of a method whose instructions all run, and outside of subroutines. -/
structure Verified.Plain (v : Verified) (code : List UInt8) : Prop where
  tiles : v.body.Tiles code
  size_le : code.length ≤ Layout.maxCodeLength
  active : ∀ (index : Nat) (i : Instruction), v.body.get? index = some i → v.activeAt? index = some []
  plain : ∀ (index : Nat) (i : Instruction), v.body.get? index = some i → i.isOfSubroutine = false
  returnStores : ∀ position, v.returnStores.contains position = false

theorem Settled.plain {method : Method} {v : Verified} {setup : Setup} {s : Session} (h : Settled method v setup s)
    (hsize : method.code.bytes.length ≤ Layout.maxCodeLength) (hvalues : method.constants.GivesValues)
    (hcalls : ¬ v.ReachesCall)
    (hreached : ∀ (index : Nat) (i : Instruction), v.body.get? index = some i → v.visited.contains i.position = true) :
    v.Plain method.code.bytes := by
  have hsubroutines : v.hasSubroutines = false := by
    rw [← Bool.not_eq_true, h.hasSubroutines_iff_reaches]
    exact hcalls
  have hplain : ∀ (index : Nat) (i : Instruction), v.body.get? index = some i → i.isOfSubroutine = false := by
    intro index i hi
    rw [← Bool.not_eq_true]
    exact fun hsubroutine => hcalls (h.reachesCall_of_visited hi hsubroutine (hreached index i hi))
  refine ⟨h.tiles, hsize, ?_, hplain, h.returnStores_eq hvalues hsubroutines⟩
  intro index i hi
  obtain ⟨frame, hframe⟩ := Option.isSome_iff_exists.mp ((h.visited_iff hi).mp (hreached index i hi))
  have hactive : v.activeAt? index = some frame.nesting := by rw [h.activeAt?_eq hi, hframe]; rfl
  have hnone : frame.nesting = [] := by
    -- a subroutine that is active would be registered
    refine List.eq_nil_iff_forall_not_mem.mpr fun outer houter => ?_
    obtain ⟨sub, hsub⟩ := h.registered_of_active hi hactive houter
    rw [h.subroutines_eq] at hsub
    rw [h.hasSubroutines_iff.mpr ⟨outer, sub, hsub⟩] at hsubroutines
    simp at hsubroutines
  rw [hactive, hnone]

theorem map_zipIdx_fst {α β : Type} (f : α → β) (as : List α) : (as.zipIdx.map fun e => f e.1) = as.map f := by
  conv_rhs => rw [← List.zipIdx_map_fst 0 as, List.map_map]
  rfl

/-- The copy of an instruction with its index that is kept, outside of subroutines. -/
def Copy.ofRoot (entry : Instruction × Nat) : Copy := ⟨entry.2, entry.1, .root, .keep⟩

/-- The layout in which each instruction has one copy, where it was. -/
def Body.inPlace (b : Body) : Layout where
  expansion := .ofCopies b.codeLength (b.toList.zipIdx.map Copy.ofRoot)
  positions := (b.toList.map Instruction.position).toArray
  size := b.codeLength

/-- Instructions that lie end to end are laid out where they were. -/
theorem Layout.placeFrom_ofRoot {start stop : Nat} {instructions : List Instruction}
    (h : Instruction.EndToEnd start instructions stop)
    (hsize : ∀ i ∈ instructions, i.relocatedSize i.position = i.size) (first : Nat) (positions : Array Nat) :
    placeFrom positions start ((instructions.zipIdx first).map Copy.ofRoot)
      = (positions ++ (instructions.map Instruction.position).toArray, stop) := by
  induction instructions generalizing start first positions with
  | nil =>
    obtain rfl : start = stop := h
    simp [placeFrom]
  | cons i rest ih =>
    obtain ⟨rfl, hrest⟩ := h
    have hown : i.position + (Copy.ofRoot (i, first)).sizeAt i.position = i.next := by
      show i.position + i.relocatedSize i.position = i.next
      rw [hsize i (List.mem_cons_self ..)]
      rfl
    have hlater := ih hrest (fun j hj => hsize j (List.mem_cons_of_mem _ hj)) (first + 1) (positions.push i.position)
    rw [List.zipIdx_cons, List.map_cons, placeFrom]
    show placeFrom (positions.push i.position) (i.position + (Copy.ofRoot (i, first)).sizeAt i.position) _ = _
    rw [hown, hlater]
    simp

namespace Layout

/-! ## Ranges that stay -/

variable {first last start stop : Nat} {instructions : List Instruction}

/-- Instructions that are marked if they start between two positions. -/
def marked (first last : Nat) (instructions : List Instruction) : List (Nat × Bool) :=
  instructions.map fun i => (i.position, decide (first ≤ i.position) && decide (i.position < last))

/-- Behind the last position nothing is marked. -/
theorem rangesFrom_marked_behind (h : Instruction.EndToEnd start instructions stop) (hlast : last ≤ start) :
    rangesFrom stop none (marked first last instructions) = [] := by
  induction instructions generalizing start with
  | nil => rfl
  | cons i rest ih =>
    obtain ⟨rfl, hrest⟩ := h
    have hmark : (decide (first ≤ i.position) && decide (i.position < last)) = false := by simp [hlast]
    show rangesFrom stop none ((i.position, decide (first ≤ i.position) && decide (i.position < last)) :: _) = []
    rw [hmark]
    exact ih hrest (Nat.le_trans hlast (Nat.le_add_right _ _))

/-- Behind an instruction that does not start at a boundary, the boundary still lies ahead. -/
theorem boundary_of_cons {i : Instruction} {p : Nat} (hp : (∃ j ∈ i :: instructions, j.position = p) ∨ p = stop)
    (hne : i.position ≠ p) : (∃ j ∈ instructions, j.position = p) ∨ p = stop := by
  refine hp.imp_left ?_
  rintro ⟨j, hj, hposition⟩
  rcases List.mem_cons.mp hj with rfl | hj
  · exact absurd hposition hne
  · exact ⟨j, hj, hposition⟩

/-- A range that is open goes on up to the last position, which is the start of an instruction or the end. -/
theorem rangesFrom_marked_inside (h : Instruction.EndToEnd start instructions stop) (hfirst : first ≤ start)
    (hend : (∃ i ∈ instructions, i.position = last) ∨ last = stop) (hlast : start ≤ last) :
    rangesFrom stop (some first) (marked first last instructions) = [(first, last)] := by
  induction instructions generalizing start with
  | nil =>
    obtain rfl : last = stop := hend.resolve_left (by simp)
    rfl
  | cons i rest ih =>
    obtain ⟨rfl, hrest⟩ := h
    rw [marked, List.map_cons, rangesFrom]
    by_cases hlt : i.position < last
    · have hend' := boundary_of_cons hend (Nat.ne_of_lt hlt)
      rw [if_pos (by simp [hfirst, hlt])]
      exact ih hrest (Nat.le_trans hfirst (Nat.le_add_right _ _)) hend' (hrest.le_boundary hend')
    · obtain rfl : i.position = last := by omega
      rw [if_neg (by simp)]
      exact congrArg _ (rangesFrom_marked_behind hrest (Nat.le_add_right _ _))

/-- Instructions between two starts of instructions make up one range. -/
theorem rangesFrom_marked (h : Instruction.EndToEnd start instructions stop) (horder : first < last)
    (hstart : ∃ i ∈ instructions, i.position = first) (hend : (∃ i ∈ instructions, i.position = last) ∨ last = stop) :
    rangesFrom stop none (marked first last instructions) = [(first, last)] := by
  induction instructions generalizing start with
  | nil => simp at hstart
  | cons i rest ih =>
    -- the first position is at or behind this instruction: the range opens here, or later
    have hfirst := h.le_boundary (Or.inl hstart)
    obtain ⟨rfl, hrest⟩ := h
    have hend' := boundary_of_cons hend (by omega)
    rw [marked, List.map_cons, rangesFrom]
    rcases Nat.lt_or_eq_of_le hfirst with hlt | rfl
    · obtain ⟨j, hj, hposition⟩ := hstart
      rw [if_neg (by simp [hlt])]
      refine ih hrest ⟨j, ?_, hposition⟩ hend'
      exact (List.mem_cons.mp hj).resolve_left (by rintro rfl; omega)
    · rw [if_pos (by simp [horder])]
      exact rangesFrom_marked_inside hrest (Nat.le_add_right _ _) hend' (hrest.le_boundary hend')

end Layout

namespace Verified.Plain

variable {v : Verified} {code : List UInt8} {index : Nat} {i : Instruction}

theorem flow_cases (h : v.Plain code) (hi : v.body.get? index = some i) :
    (∀ target, i.flow ≠ .jsr target) ∧ ∀ slot, i.flow ≠ .ret slot :=
  Instruction.isOfSubroutine_eq_false_iff.mp (h.plain index i hi)

/-- Each instruction is copied once, and kept. -/
theorem copies_eq (h : v.Plain code) : v.copies = v.body.toList.zipIdx.map Copy.ofRoot := by
  -- nothing is nested, so the outermost call has all instructions, and none of them opens another call
  have hall : v.instructionsIn .root = v.body.toList.zipIdx := by
    refine List.filter_eq_self.mpr ?_
    rintro ⟨i, index⟩ hmem
    exact beq_iff_eq.mpr (h.active index i (Body.mem_zipIdx_toList.mp hmem))
  unfold copies
  rw [copiesIn_succ, hall, List.map_eq_flatMap]
  refine List.flatMap_congr ?_
  rintro ⟨i, index⟩ hmem
  have hkeep : v.leafDisposition i = .keep := by
    unfold leafDisposition
    split
    · rw [h.returnStores]
      rfl
    · rfl
  rw [block_of_leaf (h.flow_cases (Body.mem_zipIdx_toList.mp hmem)).1, hkeep]
  rfl

/-- There is no return to be found. -/
theorem bindReturns_eq (h : v.Plain code) :
    (Expansion.ofCopies v.body.codeLength v.copies).bindReturns v = .ok (.ofCopies v.body.codeLength v.copies) := by
  unfold Expansion.bindReturns
  have hall : List.Forall₂ (fun numbered c =>
      (Expansion.ofCopies v.body.codeLength v.copies).bindReturn v numbered = .ok c)
      v.copies.zipIdx (v.copies.zipIdx.map Prod.fst) := by
    rw [List.forall₂_map_right_iff, List.forall₂_same]
    rintro ⟨c, number⟩ hmem
    obtain ⟨hcopy, -⟩ := isCopy_of_mem .root (List.mem_of_getElem? (List.mem_zipIdx_iff_getElem?.mp hmem))
    unfold Expansion.bindReturn
    dsimp only
    split
    · rename_i slot hflow
      exact absurd hflow ((h.flow_cases hcopy.get).2 slot)
    · rfl
  rw [List.zipIdx_map_fst] at hall
  exact bind_eq_ok.mpr ⟨v.copies, mapM_eq_ok.mpr hall, rfl⟩

/-- The copies are laid out where the instructions were. -/
theorem layout_eq (h : v.Plain code) : v.layout = .ok v.body.inPlace := by
  have hsize : ∀ i ∈ v.body.toList, i.relocatedSize i.position = i.size := by
    intro i hi
    obtain ⟨index, hi⟩ := Body.mem_toList.mp hi
    exact (h.tiles.decodes hi).relocatedSize_self
  have hplaced := Layout.placeFrom_ofRoot h.tiles.endToEnd hsize 0 #[]
  unfold layout
  refine bind_eq_ok.mpr ⟨_, h.bindReturns_eq, ?_⟩
  rw [h.copies_eq]
  unfold Layout.ofExpansion Body.inPlace
  rw [show (Expansion.ofCopies v.body.codeLength (v.body.toList.zipIdx.map Copy.ofRoot)).copies.toList
    = v.body.toList.zipIdx.map Copy.ofRoot from rfl, hplaced, h.tiles.codeLength_eq]
  dsimp only
  rw [if_neg (Nat.not_lt.mpr h.size_le)]
  simp

/-! ## The bytes -/

theorem lays (h : v.Plain code) : v.Lays code v.body.inPlace := lays_of_layout h.tiles h.layout_eq

theorem getElem?_copies (hi : v.body.get? index = some i) :
    v.body.inPlace.expansion.copies[index]? = some (.ofRoot (i, index)) := by
  show (v.body.toList.zipIdx.map Copy.ofRoot).toArray[index]? = _
  rw [List.getElem?_toArray, List.getElem?_map, List.getElem?_zipIdx, Body.getElem?_toList, hi]
  simp

theorem copy_of_getElem? {c : Copy} (hc : v.body.inPlace.expansion.copies[index]? = some c) :
    ∃ i, v.body.get? index = some i ∧ c = .ofRoot (i, index) := by
  change (v.body.toList.zipIdx.map Copy.ofRoot).toArray[index]? = some c at hc
  rw [List.getElem?_toArray, List.getElem?_map, List.getElem?_zipIdx, Body.getElem?_toList] at hc
  cases hi : v.body.get? index with
  | none => simp [hi] at hc
  | some i => exact ⟨i, rfl, by simpa [hi, eq_comm] using hc⟩

theorem getElem?_positions (hi : v.body.get? index = some i) :
    v.body.inPlace.positions[index]? = some i.position := by
  show (v.body.toList.map Instruction.position).toArray[index]? = _
  rw [List.getElem?_toArray, List.getElem?_map, Body.getElem?_toList, hi]
  rfl

theorem startOf_eq (hi : v.body.get? index = some i) : v.body.inPlace.startOf index = i.position := by
  unfold Layout.startOf
  rw [getElem?_positions hi]
  rfl

/-- Jumps lead to the positions that they led to. -/
theorem resolve_eq (h : v.Plain code) (hi : v.body.get? index = some i) :
    v.body.inPlace.resolve i.position .root = .ok i.position := by
  refine map_eq_ok.mpr ⟨index, ?_, ?_⟩
  · rw [h.lays.resolve_eq_ok_iff (h.tiles.position_lt_length hi)]
    exact ⟨_, getElem?_copies hi, rfl, List.prefix_rfl⟩
  · rw [h.lays.positionOf_eq (getElem?_copies hi), startOf_eq hi]

/-- An instruction is written as it was, with its padding cleared. -/
theorem emitCopy_eq (h : v.Plain code) (hi : v.body.get? index = some i) :
    v.body.inPlace.emitCopy code.toArray (.ofRoot (i, index), i.position)
      = .ok (((v.body.cleared code).drop i.position).take i.size) := by
  have hdecodes := h.tiles.decodes hi
  have hlength : code.length ≤ 2 ^ 63 := Nat.le_trans h.size_le (by decide)
  have hposition : i.position < 2 ^ 63 := Nat.lt_of_lt_of_le (h.tiles.position_lt_length hi) hlength
  have hplace : ∀ t ∈ i.targets, ((v.body.inPlace.resolve t .root).mapError fun e =>
      VerifyError.located i.position e.fault) = .ok t := by
    intro t ht
    obtain ⟨_, j, hj, rfl⟩ := h.tiles.target_start hi ht
    exact mapError_eq_ok.mpr (h.resolve_eq hj)
  rw [h.tiles.take_drop_cleared hi]
  unfold Layout.emitCopy Copy.ofRoot
  dsimp only
  cases hflow : i.flow with
  | plain op =>
    dsimp only
    rw [Instruction.cleared_of_padding_eq_zero (by simp [Instruction.padding, hflow]), Array.toList_extract,
      List.extract_eq_take_drop, Instruction.next, Nat.add_sub_cancel_left]
  | branch kind target =>
    exact Instruction.relocated_in_place hlength hposition hdecodes (Or.inl ⟨kind, target, hflow⟩) hplace
  | select default cases =>
    exact Instruction.relocated_in_place hlength hposition hdecodes (Or.inr ⟨default, cases, hflow⟩) hplace
  | jsr target => exact absurd hflow ((h.flow_cases hi).1 target)
  | ret slot => exact absurd hflow ((h.flow_cases hi).2 slot)

theorem toList_eq (b : Body) : b.inPlace.toList = b.toList.zipIdx.map fun e => (Copy.ofRoot e, e.1.position) := by
  show (b.toList.zipIdx.map Copy.ofRoot).zip (b.toList.map Instruction.position) = _
  rw [← map_zipIdx_fst Instruction.position, List.zip_map']

/-- The new code is the old one, with its padding cleared. -/
theorem emit_eq (h : v.Plain code) : v.body.inPlace.emit code = .ok (v.body.cleared code) := by
  have hpieces : v.body.inPlace.toList.mapM (v.body.inPlace.emitCopy code.toArray)
      = .ok (v.body.toList.map fun i => ((v.body.cleared code).drop i.position).take i.size) := by
    rw [toList_eq, mapM_eq_ok, ← map_zipIdx_fst _ v.body.toList, List.forall₂_map_left_iff,
      List.forall₂_map_right_iff, List.forall₂_same]
    rintro ⟨i, index⟩ hmem
    exact h.emitCopy_eq (Body.mem_zipIdx_toList.mp hmem)
  unfold Layout.emit
  refine bind_eq_ok.mpr ⟨_, hpieces, ?_⟩
  rw [h.tiles.endToEnd.flatten_pieces (Body.length_cleared v.body code)]
  rfl

/-- The new code is decoded to the same instructions. -/
theorem decode_eq (h : v.Plain code) (hbody : Body.decode code = .ok v.body) :
    Body.decode (v.body.cleared code) = .ok v.body := by
  refine Body.decode_congr hbody (Body.length_cleared v.body code) ?_
  intro index i hi
  obtain ⟨i', hbecomes, hdecodes⟩ :=
    h.lays.decodes_of_emits (h.lays.emits_of_emit h.emit_eq) (getElem?_copies hi) rfl
  rw [startOf_eq hi] at hbecomes hdecodes
  -- what was written is decoded to the moved instruction, and nothing moved
  obtain rfl : i = i' := by
    cases hbecomes with
    | @keep flow hkeep hflow =>
      have hsame : i.flow = flow := by
        refine hflow.eq_of_stays fun t ht u hu => ?_
        obtain ⟨_, j, hj, rfl⟩ := h.tiles.target_start hi ht
        exact Except.ok.inj ((h.resolve_eq hj).symm.trans hu)
      show i = ⟨i.position, i.relocatedSize i.position, i.opcode, i.wide, flow⟩
      rw [(h.tiles.decodes hi).relocatedSize_self, ← hsame]
    | jsr hcall => simp [Copy.ofRoot] at hcall
    | ret hret => simp [Copy.ofRoot] at hret
  refine hdecodes code.length (Nat.le_of_eq h.tiles.codeLength_eq) ?_
  intro t ht
  obtain ⟨_, j, hj, rfl⟩ := h.tiles.target_start hi ht
  exact h.tiles.position_lt_length hj

/-! ## Handlers -/

theorem emitted_eq (b : Body) : b.inPlace.emitted = b.toList.zipIdx.map fun e => (Copy.ofRoot e, e.1.position) := by
  unfold Layout.emitted
  rw [toList_eq, List.filter_eq_self]
  intro placed hplaced
  obtain ⟨e, -, rfl⟩ := List.mem_map.mp hplaced
  rfl

/-- A range of positions stays. -/
theorem ranges_eq (h : v.Plain code) {first last : Nat} (covered : Copy → Bool) (horder : first < last)
    (hstart : ∃ i ∈ v.body.toList, i.position = first)
    (hend : (∃ i ∈ v.body.toList, i.position = last) ∨ last = code.length)
    (hcovered : ∀ e, covered (.ofRoot e) = (decide (first ≤ e.1.position) && decide (e.1.position < last))) :
    v.body.inPlace.ranges covered = [(first, last)] := by
  have hmarked : (v.body.inPlace.emitted.map fun placed => (placed.2, covered placed.1))
      = Layout.marked first last v.body.toList := by
    unfold Layout.marked
    rw [emitted_eq, List.map_map, ← map_zipIdx_fst _ v.body.toList]
    refine List.map_congr_left fun e _ => ?_
    simp only [Function.comp_apply, hcovered]
  have hsize : v.body.inPlace.size = code.length := h.tiles.codeLength_eq
  unfold Layout.ranges
  dsimp only
  rw [hmarked, hsize, Layout.rangesFrom_marked h.tiles.endToEnd horder hstart hend]
  simp [horder]

/-- The one copy of an instruction is found at its position. -/
theorem copiesOf_eq (h : v.Plain code) (hi : v.body.get? index = some i) :
    v.body.inPlace.expansion.copiesOf i.position = [index] := by
  have hlt := h.tiles.position_lt_length hi
  have hnodup : (v.body.inPlace.expansion.copiesOf i.position).Nodup := by
    show ((Expansion.ofCopies v.body.codeLength _).copiesOf i.position).Nodup
    rw [Expansion.copiesOf_ofCopies _ (h.tiles.codeLength_eq.symm ▸ hlt)]
    refine (List.filter_sublist.map Prod.snd).nodup ?_
    rw [List.zipIdx_map_snd]
    exact List.nodup_range'
  -- numbers are listed once each, so it is enough to know which of them are listed
  refine List.perm_singleton.mp ((List.perm_ext_iff_of_nodup hnodup (List.nodup_singleton _)).mpr fun number => ?_)
  rw [h.lays.indexed i.position number hlt, List.mem_singleton]
  constructor
  · rintro ⟨c, hc, hposition⟩
    obtain ⟨j, hj, rfl⟩ := copy_of_getElem? hc
    exact h.tiles.index_eq hj hi hposition
  · rintro rfl
    exact ⟨_, getElem?_copies hi, rfl⟩

/-- An entry of the exception table with positions that are starts of instructions stays as it is. -/
theorem handlerEntries_eq (h : v.Plain code) {e : ExceptionHandler} (horder : e.startPc.toNat < e.endPc.toNat)
    (hstart : (v.body.indexOf? e.startPc.toNat).isSome)
    (hend : (v.body.indexOf? e.endPc.toNat).isSome ∨ e.endPc.toNat = v.body.codeLength)
    (htarget : (v.body.indexOf? e.handlerPc.toNat).isSome) : v.body.inPlace.handlerEntries e = [e] := by
  have hmem : ∀ {p : Nat}, (v.body.indexOf? p).isSome → ∃ i ∈ v.body.toList, i.position = p := by
    intro p hp
    obtain ⟨index, hindex⟩ := Option.isSome_iff_exists.mp hp
    obtain ⟨i, hi, hposition⟩ := h.tiles.indexOf?_eq_some_iff.mp hindex
    exact ⟨i, Body.mem_toList.mpr ⟨index, hi⟩, hposition⟩
  obtain ⟨index, hindex⟩ := Option.isSome_iff_exists.mp htarget
  obtain ⟨i, hi, hposition⟩ := h.tiles.indexOf?_eq_some_iff.mp hindex
  rw [h.tiles.codeLength_eq] at hend
  have hranges := h.ranges_eq (Layout.protects e (.ofRoot (i, index))) horder (hmem hstart) (hend.imp_left hmem)
    fun _ => Bool.and_true _
  have htargetPosition : v.body.inPlace.positionOf index = e.handlerPc.toNat := by
    rw [h.lays.positionOf_eq (getElem?_copies hi), startOf_eq hi, hposition]
  unfold Layout.handlerEntries
  rw [← hposition, h.copiesOf_eq hi, List.flatMap_singleton, getElem?_copies hi]
  show (v.body.inPlace.ranges (Layout.protects e (.ofRoot (i, index)))).map _ = [e]
  rw [hranges, htargetPosition]
  simp

/-- The exception table stays as it is. -/
theorem exceptionTable_eq {handlers : List ExceptionHandler}
    (hhandlers : ∀ e ∈ handlers, v.body.inPlace.handlerEntries e = [e]) :
    v.body.inPlace.exceptionTable handlers = handlers := by
  unfold Layout.exceptionTable
  rw [List.flatMap_congr hhandlers]
  exact List.flatMap_singleton' _

end Verified.Plain

/-- **Code without subroutines stays as it is.**  If no call of a subroutine is reached in a method with constants from
a pool (there is no other source of them), and every instruction is, inlining goes through.  The new bytes are decoded to
the same instructions and are those of the method, with zeros for the padding of switches; the sizes of the frame and the
exception table are the same.  Of the attributes, stack maps are dropped and all others stay in order, as they are unless
they are tables of positions. -/
theorem plain_code_kept {method : Method} {v : Verified} {pool : ConstantPool}
    (hsize : method.code.bytes.length ≤ 65535) (hconstants : method.constants = pool.resolver)
    (htables : method.code.TablesDecode pool) (hverify : method.verify = .ok v) (hcalls : ¬ v.ReachesCall)
    (hreached : ∀ (index : Nat) (i : Instruction), v.body.get? index = some i → v.visited.contains i.position = true) :
    ∃ out, v.inline method.code pool = .ok out ∧ Body.decode method.code.bytes = .ok v.body ∧
      Body.decode out.bytes = .ok v.body ∧ out.bytes = v.body.cleared method.code.bytes ∧
      out.maxStack = method.code.maxStack ∧ out.maxLocals = method.code.maxLocals ∧
      out.exceptionTable = method.code.exceptionTable ∧
      List.Forall₂ (fun a a' => a'.nameIndex = a.nameIndex ∧ (a.isPositionTable pool = false → a' = a))
        (method.code.attributes.filter fun a => !a.isNamed Code.stackMapTable pool) out.attributes := by
  obtain ⟨setup, s, hsettled⟩ := Method.settled (Nat.lt_of_le_of_lt hsize (by decide)) hverify
  have hplain := hsettled.plain hsize (hconstants ▸ pool.givesValues_resolver) hcalls hreached
  have hhandlers : v.body.inPlace.exceptionTable method.code.exceptionTable = method.code.exceptionTable := by
    refine Verified.Plain.exceptionTable_eq fun e he => ?_
    obtain ⟨resolved, hresolve⟩ := exists_mapM_iff.mp ⟨_, hsettled.handlers⟩ e he
    rw [← hsettled.body_eq, Inference.resolveHandler_eq_ok] at hresolve
    obtain ⟨hstart, hend, htarget, horder, -⟩ := hresolve
    exact hplain.handlerEntries_eq horder hstart hend htarget
  obtain ⟨attributes, hattributes⟩ := v.body.inPlace.attributes_eq_ok htables
  have hinline : v.inline method.code pool = .ok
      { method.code with bytes := v.body.cleared method.code.bytes, attributes } := by
    rw [Verified.inline_eq, hplain.layout_eq]
    dsimp only
    unfold Layout.code
    rw [hplain.emit_eq, hhandlers, hattributes]
    rfl
  exact ⟨_, hinline, hsettled.decode_eq, hplain.decode_eq hsettled.decode_eq, rfl, rfl, rfl, rfl,
    Verified.attributes_of_inline hinline⟩

/-- The names of two attributes. -/
def attributeNames : ConstantPool := ⟨.ofList 1 [.utf8 "StackMapTable", .utf8 "Synthetic"]⟩

/-- A method with a switch that has other bytes than zeros for padding, and a handler:

    0 iload_0;  1 lookupswitch (5: 20, default: 26);  20 iinc 0 1;  23 goto 26;  26 return;  27 pop;  28 return
-/
def paddedSwitch : Method :=
  let method := (Method.bare ⟨[.base .int], none⟩ 1 1
    [0x1a, 0xab, 0x11, 0x22, 0, 0, 0, 25, 0, 0, 0, 1, 0, 0, 0, 5, 0, 0, 0, 19, 0x84, 0, 1, 0xa7, 0, 3, 0xb1, 0x57,
      0xb1]).guarded [⟨20, 26, 27, 0⟩]
  { method with
    code := { method.code with attributes := [⟨1, [0, 0]⟩, ⟨2, [7]⟩] }
    constants := attributeNames.resolver }

/-- Only the padding changes, and the stack maps go. -/
theorem paddedSwitch_kept :
    paddedSwitch.code.bytes.length ≤ 65535 ∧ paddedSwitch.code.TablesDecode attributeNames ∧
    ∃ v out, paddedSwitch.verify = .ok v ∧ ¬ v.ReachesCall ∧
      (∀ (index : Nat) (i : Instruction), v.body.get? index = some i → v.visited.contains i.position = true) ∧
      v.inline paddedSwitch.code attributeNames = .ok out ∧ Body.decode out.bytes = .ok v.body ∧
      out.bytes = [0x1a, 0xab, 0, 0, 0, 0, 0, 25, 0, 0, 0, 1, 0, 0, 0, 5, 0, 0, 0, 19, 0x84, 0, 1, 0xa7, 0, 3, 0xb1,
        0x57, 0xb1] ∧ out.exceptionTable = [⟨20, 26, 27, 0⟩] ∧ out.attributes = [⟨2, [7]⟩] := by
  have htables : paddedSwitch.code.TablesDecode attributeNames := by
    intro a ha
    have hnames : ∀ a ∈ paddedSwitch.code.attributes, a.isPositionTable attributeNames = false := by decide +kernel
    have hname := hnames a ha
    unfold Attribute.isPositionTable at hname
    simp_all
  obtain ⟨v, hverify, htest⟩ := @Method.exists_of_within paddedSwitch 20
    (fun v => !v.hasSubroutines && (v.body.toList.all fun i => v.visited.contains i.position) &&
      v.body.cleared paddedSwitch.code.bytes = [0x1a, 0xab, 0, 0, 0, 0, 0, 25, 0, 0, 0, 1, 0, 0, 0, 5, 0, 0, 0, 19,
        0x84, 0, 1, 0xa7, 0, 3, 0xb1, 0x57, 0xb1]) (by decide +kernel)
  simp only [Bool.and_eq_true, Bool.not_eq_true', List.all_eq_true, decide_eq_true_eq] at htest
  obtain ⟨⟨hsubroutines, hvisited⟩, hcleared⟩ := htest
  obtain ⟨setup, s, hsettled⟩ := Method.settled (show paddedSwitch.code.bytes.length < 2 ^ 64 by decide) hverify
  have hcalls : ¬ v.ReachesCall := by
    rw [← hsettled.hasSubroutines_iff_reaches, hsubroutines]
    simp
  have hreached : ∀ (index : Nat) (i : Instruction), v.body.get? index = some i →
      v.visited.contains i.position = true :=
    fun index i hi => hvisited i (Body.mem_toList.mpr ⟨index, hi⟩)
  obtain ⟨out, hinline, -, hdecode, hbytes, -, -, htable, hattributes⟩ :=
    plain_code_kept (by decide) rfl htables hverify hcalls hreached
  refine ⟨by decide, htables, v, out, hverify, hcalls, hreached, hinline, hdecode, hbytes.trans hcleared, htable, ?_⟩
  have hfilter : (paddedSwitch.code.attributes.filter fun a => !a.isNamed Code.stackMapTable attributeNames)
      = [⟨2, [7]⟩] := by decide +kernel
  rw [hfilter] at hattributes
  obtain ⟨a, rest, ⟨-, hsame⟩, hrest, hout⟩ := List.forall₂_cons_left_iff.mp hattributes
  rw [hout, hsame (by decide +kernel), List.forall₂_nil_left_iff.mp hrest]

end Bytecode
