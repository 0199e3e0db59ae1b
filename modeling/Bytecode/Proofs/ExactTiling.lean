import Bytecode.Proofs.EncodedLength
import Bytecode.Proofs.Reencoding
import Mathlib.Algebra.GroupWithZero.Nat

/-!
# Code is tiled exactly, or one instruction is blamed

Decoding goes through code from its start, instruction by instruction.

* `Instruction.decodeWithin?`, `Body.decodeWithin?`: decoding by accesses that have no result outside of the code, in a
  loop that only ends because instructions have a size; `Body.decodeWithin?_eq` says that it always gives the answer
  of `Body.decode`;
* `Body.Reached`: the positions that decoding comes to;
* `Body.TilesExactly`: what a decoded body is, said with the sizes of its instructions alone;
* `Body.Blames`: what an error is about: an instruction that is reached, and cannot be decoded or names a position that
  is not reached.

Both together are `Body.decode_exact`.
-/

namespace Bytecode

/-! ## Accesses inside the code -/

/-- The bytes from an offset on, which may be the end but not beyond it. -/
def sliceFrom? (bytes : List UInt8) (offset : Nat) : Option (List UInt8) :=
  if offset ≤ bytes.length then some (bytes.drop offset) else none

theorem sliceFrom?_of_le {bytes : List UInt8} {offset : Nat} (h : offset ≤ bytes.length) :
    sliceFrom? bytes offset = some (bytes.drop offset) :=
  if_pos h

namespace Instruction

variable {code : List UInt8} {length position : Nat}

/-- Decode the instruction at a position by accesses that fail outside of the code: the byte of the opcode, the bytes
behind it, and the bytes behind the padding of a switch.  Operands are taken off these, and that they are too few is
part of the answer. -/
def decodeWithin? (code : List UInt8) (position : Nat) : Option (Except VerifyFault Instruction) := do
  let opcode ← code[position]?
  let operands ← sliceFrom? code (position + 1)
  if opcode = Opcode.tableswitch ∨ opcode = Opcode.lookupswitch then
    let padding := Opcode.switchPadding position
    if operands.length < padding then return .error .truncatedInstruction
    else
      let words ← sliceFrom? operands padding
      return do
        let ((size, default, cases), _) ← (switchOperands code.length position opcode).run words
        return ⟨position, 1 + padding + size, opcode, false, .select default cases⟩
  else return decodeFrom code.length position (opcode :: operands)

/-- Inside of the code, no access fails. -/
theorem decodeWithin?_eq (h : position < code.length) :
    decodeWithin? code position = some (decodeFrom code.length position (code.drop position)) := by
  have hlength : (code.drop (position + 1)).length = code.length - position - 1 := by
    rw [List.length_drop]
    omega
  unfold decodeWithin?
  rw [List.getElem?_eq_getElem h, sliceFrom?_of_le h, List.drop_eq_getElem_cons h]
  simp only [Option.bind_eq_bind, Option.bind_some]
  by_cases hswitch : code[position] = Opcode.tableswitch ∨ code[position] = Opcode.lookupswitch
  · have hwide : ¬ code[position] = Opcode.wide := by
      rcases hswitch with heq | heq <;> rw [heq] <;> decide
    rw [if_pos hswitch, hlength]
    unfold decodeFrom
    simp only [if_neg hwide, if_pos hswitch]
    by_cases hpadding : code.length - position - 1 < Opcode.switchPadding position
    · rw [if_pos hpadding, if_pos hpadding]
      rfl
    · rw [if_neg hpadding, if_neg hpadding, sliceFrom?_of_le (Nat.le_of_not_lt (hlength ▸ hpadding))]
      rfl
  · rw [if_neg hswitch]
    rfl

theorem size_pos_of_decodeWithin? {i : Instruction} (hposition : position < code.length)
    (h : decodeWithin? code position = some (.ok i)) : 1 ≤ i.size := by
  rw [decodeWithin?_eq hposition] at h
  exact (decodeFrom_eq_ok.mp (Option.some.inj h)).size_pos

/-! ## Cases and targets -/

/-- Keys that each are above the one in front ascend. -/
theorem KeysAscend.pairwise {previous : Option Int32} {pairs : List (Int32 × Nat)} (h : KeysAscend previous pairs) :
    (∀ p ∈ previous, ∀ pair ∈ pairs, p < pair.1) ∧ (pairs.map Prod.fst).Pairwise (· < ·) := by
  induction pairs generalizing previous with
  | nil => simp
  | cons pair rest ih =>
    obtain ⟨key, target⟩ := pair
    obtain ⟨hfirst, hrest⟩ := h
    obtain ⟨habove, hpairwise⟩ := ih hrest
    have hkey := habove key rfl
    refine ⟨?_, ?_⟩
    · intro p hp pair hpair
      have hp := Int32.not_le.mp (hfirst p hp)
      rcases List.mem_cons.mp hpair with rfl | hpair
      · exact hp
      · exact Int32.lt_trans hp (hkey pair hpair)
    · rw [List.map_cons, List.pairwise_cons]
      refine ⟨?_, hpairwise⟩
      intro other hother
      obtain ⟨pair, hpair, rfl⟩ := List.mem_map.mp hother
      exact hkey pair hpair

theorem lt_of_targetAt {target : Nat} {distance : Int} (h : targetAt length position distance = .ok target) :
    target < length := by
  unfold targetAt at h
  dsimp only at h
  split at h
  · simp at h
  · rw [← Except.ok.inj h]
    omega

theorem lt_of_tableTargets {count : Nat} {front targets : List Nat} {input rest : List UInt8}
    (h : tableTargets length position count front input = .ok (targets, rest)) (hfront : ∀ t ∈ front, t < length) :
    ∀ t ∈ targets, t < length := by
  induction count generalizing front input with
  | zero =>
    simp only [tableTargets, state_pure_eq_ok, Prod.mk.injEq] at h
    intro t ht
    rw [← h.1, List.mem_reverse] at ht
    exact hfront t ht
  | succ count ih =>
    obtain ⟨_, _, target, -, htarget, h⟩ := tableTargets_succ_eq_ok.mp h
    exact ih h (List.forall_mem_cons.mpr ⟨lt_of_targetAt htarget, hfront⟩)

theorem lt_of_lookupPairs {count : Nat} {front pairs : List (Int32 × Nat)} {input rest : List UInt8}
    (h : lookupPairs length position count front input = .ok (pairs, rest)) (hfront : ∀ p ∈ front, p.2 < length) :
    ∀ p ∈ pairs, p.2 < length := by
  induction count generalizing front input with
  | zero =>
    simp only [lookupPairs, state_pure_eq_ok, Prod.mk.injEq] at h
    intro p hp
    rw [← h.1, List.mem_reverse] at hp
    exact hfront p hp
  | succ count ih =>
    obtain ⟨_, _, _, _, target, -, -, -, htarget, h⟩ := lookupPairs_succ_eq_ok.mp h
    exact ih h (List.forall_mem_cons.mpr ⟨lt_of_targetAt htarget, hfront⟩)

namespace Decodes

variable {bytes : List UInt8} {i : Instruction}

/-- The positions that a decoded instruction names are inside the code. -/
theorem target_lt (h : Decodes length position bytes i) {t : Nat} (ht : t ∈ i.targets) : t < length := by
  cases h with
  | widened h =>
    rcases flow_of_widened h with ⟨op, rfl⟩ | ⟨index, rfl⟩ <;> simp [targets] at ht
  | @switch operands rest opcode size default cases hopcode hpadding h =>
    rcases List.mem_cons.mp (show t ∈ default :: cases.targets from ht) with rfl | hcase
    · rcases hopcode with rfl | rfl
      · obtain ⟨_, _, _, _, _, _, _, -, hdefault, -⟩ := switchOperands_table_eq_ok.mp h
        exact lt_of_targetAt hdefault
      · obtain ⟨_, _, _, _, _, -, hdefault, -⟩ := switchOperands_lookup_eq_ok.mp h
        exact lt_of_targetAt hdefault
    · rcases hopcode with rfl | rfl
      · obtain ⟨_, _, _, _, _, _, targets, -, -, -, -, -, -, htargets, -, rfl⟩ := switchOperands_table_eq_ok.mp h
        exact lt_of_tableTargets htargets (by simp) t hcase
      · obtain ⟨_, _, _, _, pairs, -, -, -, -, -, hpairs, -, rfl⟩ := switchOperands_lookup_eq_ok.mp h
        obtain ⟨pair, hpair, rfl⟩ := List.mem_map.mp hcase
        exact lt_of_lookupPairs hpairs (by simp) pair hpair
  | fixed hopcode hsize hfits h =>
    cases h with
    | shortBranch _ _ htarget => exact (List.mem_singleton.mp ht) ▸ lt_of_targetAt htarget
    | shortCall _ htarget => exact (List.mem_singleton.mp ht) ▸ lt_of_targetAt htarget
    | longBranch _ htarget => exact (List.mem_singleton.mp ht) ▸ lt_of_targetAt htarget
    | longCall _ htarget => exact (List.mem_singleton.mp ht) ▸ lt_of_targetAt htarget
    | ret => simp [targets] at ht
    | plain => simp [targets] at ht

/-- The keys of a lookup ascend. -/
theorem keys_pairwise {default : Nat} {pairs : List (Int32 × Nat)} (h : Decodes length position bytes i)
    (hflow : i.flow = .select default (.lookup pairs)) : (pairs.map Prod.fst).Pairwise (· < ·) := by
  obtain ⟨opcode, operands, rest, size, -, rfl | rfl, hoperands, -⟩ := h.select_inv hflow
  · obtain ⟨_, _, _, _, _, _, _, -, -, -, -, -, -, -, -, hcases⟩ := switchOperands_table_eq_ok.mp hoperands
    simp at hcases
  · obtain ⟨_, _, _, _, pairs', -, -, -, -, -, hpairs, -, hcases⟩ := switchOperands_lookup_eq_ok.mp hoperands
    obtain rfl := Cases.lookup.inj hcases
    obtain ⟨new, hnew, hkeys⟩ := keysAscend_of_lookupPairs hpairs
    obtain rfl : pairs = new := by simpa using hnew
    exact (KeysAscend.pairwise hkeys).2

/-- A table has an entry for each key from one word behind its padding to the next, and there is such a key. -/
theorem table_bounds {default : Nat} {low : Int32} {entries : List Nat} (h : Decodes length position bytes i)
    (hflow : i.flow = .select default (.table low entries)) :
    low = wordAt bytes (1 + Opcode.switchPadding position + 4) ∧
      (entries.length : Int) = (wordAt bytes (1 + Opcode.switchPadding position + 8)).toInt - low.toInt + 1 ∧
      1 ≤ entries.length := by
  obtain ⟨opcode, operands, rest, size, rfl, rfl | rfl, hoperands, -⟩ := h.select_inv hflow
  · obtain ⟨found, hcases, horder, hcount, -⟩ := tableBounds_of_switchOperands hoperands
    obtain ⟨rfl, rfl⟩ := Cases.table.inj hcases
    have hwords : ∀ offset, wordAt (operands.drop (Opcode.switchPadding position)) offset =
        wordAt (Opcode.tableswitch :: operands) (1 + Opcode.switchPadding position + offset) :=
      wordAt_behind Opcode.tableswitch operands (Opcode.switchPadding position)
    rw [hwords] at horder hcount ⊢
    rw [hwords] at horder hcount
    have hle := Int32.le_iff_toInt_le.mp horder
    unfold tableCount at hcount
    exact ⟨rfl, by omega, by omega⟩
  · obtain ⟨_, hcases, -⟩ := pairCount_of_switchOperands hoperands
    simp at hcases

end Decodes

end Instruction

namespace Body

variable {code : List UInt8} {b : Body}

/-! ## The loop -/

/-- Decode the instructions from a position on, onto those already decoded, by accesses inside the code. -/
def scanWithin? (code : List UInt8) (front : Tiling Instruction) (position : Nat) :
    Option (Tiling Instruction × Option VerifyError) :=
  if _ : position < code.length then
    match _ : Instruction.decodeWithin? code position with
    | none => none
    | some (.error fault) => some (front, some (.located position fault))
    | some (.ok i) => scanWithin? code (front.push i) (position + i.size)
  else some (front, none)
termination_by code.length - position
decreasing_by
  have hpos := Instruction.size_pos_of_decodeWithin? ‹position < code.length› ‹Instruction.decodeWithin? _ _ = _›
  omega

/-- A body from its instructions, if they were all decoded and name starts of instructions only. -/
def ofScan (scanned : Tiling Instruction × Option VerifyError) : Except VerifyError Body :=
  match scanned with
  | (_, some error) => .error error
  | (instructions, none) =>
    match (⟨instructions⟩ : Body).strayTarget? with
    | some error => .error error
    | none => .ok ⟨instructions⟩

/-- Decode a method body by accesses inside the code. -/
def decodeWithin? (code : List UInt8) : Option (Except VerifyError Body) :=
  (scanWithin? code (Tiling.empty 0) 0).map ofScan

theorem decode_eq_ofScan (code : List UInt8) : decode code = ofScan (scan code) := rfl

theorem lt_length_of_drop {position : Nat} {opcode : UInt8} {operands : List UInt8}
    (hrest : opcode :: operands = code.drop position) : position < code.length := by
  have hlength := congrArg List.length hrest
  rw [List.length_cons, List.length_drop] at hlength
  omega

/-- Behind an instruction, its bytes are taken off the code. -/
theorem drop_operands {position size : Nat} {opcode : UInt8} {operands : List UInt8} (hpos : 1 ≤ size)
    (hrest : opcode :: operands = code.drop position) : operands.drop (size - 1) = code.drop (position + size) := by
  obtain ⟨size, rfl⟩ := Nat.exists_eq_add_of_le' hpos
  rw [← List.drop_drop, ← hrest]
  rfl

/-- The loop over accesses inside the code goes through like the one over what is left of it. -/
theorem scanWithin?_eq {front : Tiling Instruction} {position : Nat} {rest : List UInt8}
    (hrest : rest = code.drop position) :
    scanWithin? code front position = some (scanOnto code.length front position rest) := by
  fun_induction scanOnto code.length front position rest with
  | case1 front position =>
    have hend := List.drop_eq_nil_iff.mp hrest.symm
    rw [scanWithin?, dif_neg (Nat.not_lt.mpr hend)]
  | case2 front position opcode operands fault hdecode =>
    have hwithin := Instruction.decodeWithin?_eq (lt_length_of_drop hrest)
    rw [← hrest, hdecode] at hwithin
    rw [scanWithin?, dif_pos (lt_length_of_drop hrest)]
    split
    · rename_i hnone
      simp [hwithin] at hnone
    · rename_i found hfound
      obtain rfl := Except.error.inj (Option.some.inj (hwithin.symm.trans hfound))
      rfl
    · rename_i found hfound
      simp [hwithin] at hfound
  | case3 front position opcode operands i hdecode ih =>
    have hwithin := Instruction.decodeWithin?_eq (lt_length_of_drop hrest)
    rw [← hrest, hdecode] at hwithin
    have hpos := (Instruction.decodeFrom_eq_ok.mp hdecode).size_pos
    rw [← ih (drop_operands hpos hrest), scanWithin?, dif_pos (lt_length_of_drop hrest)]
    split
    · rename_i hnone
      simp [hwithin] at hnone
    · rename_i found hfound
      simp [hwithin] at hfound
    · rename_i found hfound
      obtain rfl := Except.ok.inj (Option.some.inj (hwithin.symm.trans hfound))
      rfl

/-- Every access of decoding is inside the code, and it ends. -/
theorem decodeWithin?_eq (code : List UInt8) : decodeWithin? code = some (decode code) := by
  unfold decodeWithin?
  rw [scanWithin?_eq rfl, decode_eq_ofScan]
  rfl

/-! ## Positions that are reached -/

/-- The positions that decoding comes to, from instruction to instruction. -/
inductive Reached (code : List UInt8) : Nat → Prop
  | start : Reached code 0
  | next {position : Nat} {i : Instruction} (hposition : Reached code position)
      (hdecode : Instruction.decode code position = .ok i) : Reached code (position + i.size)

namespace Laid

/-- The instructions of a body are reached. -/
theorem reached (h : Laid code b) {index : Nat} {i : Instruction} (hi : b.get? index = some i) :
    Reached code i.position := by
  induction index generalizing i with
  | zero =>
    rw [h.position_zero hi]
    exact .start
  | succ index ih =>
    have hlt := get?_isSome_iff.mp (Option.isSome_of_eq_some hi)
    obtain ⟨before, hbefore⟩ := b.exists_get? index (by omega)
    rw [h.position_succ hbefore hi]
    exact .next (ih hbefore) (Instruction.decode_eq_ok.mpr (h.decodes hbefore))

/-- What is reached inside of the code is the start of an instruction. -/
theorem start_of_reached (h : Laid code b) {position : Nat} (hreached : Reached code position) :
    position = code.length ∨ ∃ index i, b.get? index = some i ∧ i.position = position := by
  induction hreached with
  | start =>
    rcases Nat.eq_zero_or_pos b.size with hempty | hsome
    · exact Or.inl (h.scanned.empty hempty).symm
    · obtain ⟨i, hi⟩ := Option.isSome_iff_exists.mp (get?_isSome_iff.mpr hsome)
      exact Or.inr ⟨0, i, hi, h.position_zero hi⟩
  | @next position i hposition hdecode ih =>
    have hdecodes := Instruction.decode_eq_ok.mp hdecode
    rcases ih with rfl | ⟨index, i', hi', rfl⟩
    · -- at the end there is nothing to decode
      rw [List.drop_length] at hdecodes
      cases hdecodes
    · obtain rfl := hdecodes.unique (h.decodes hi')
      rcases Nat.lt_or_ge (index + 1) b.size with hmore | hlast
      · obtain ⟨behind, hbehind⟩ := Option.isSome_iff_exists.mp (get?_isSome_iff.mpr hmore)
        exact Or.inr ⟨index + 1, behind, hbehind, h.position_succ hi' hbehind⟩
      · exact Or.inl (h.next_eq_length hi' hlast)

/-- The position of an instruction is the sum of the sizes in front of it. -/
theorem position_eq_sum (h : Laid code b) {index : Nat} {i : Instruction} (hi : b.get? index = some i) :
    i.position = ((b.toList.take index).map Instruction.size).sum := by
  induction index generalizing i with
  | zero => exact h.position_zero hi
  | succ index ih =>
    have hlt := get?_isSome_iff.mp (Option.isSome_of_eq_some hi)
    obtain ⟨before, hbefore⟩ := b.exists_get? index (by omega)
    rw [h.position_succ hbefore hi, List.take_add_one, getElem?_toList, hbefore, List.map_append, List.sum_append,
      ← ih hbefore]
    simp [Instruction.next]

theorem sum_size (h : Laid code b) : (b.toList.map Instruction.size).sum = code.length := by
  have hsum : ∀ {start stop : Nat} {instructions : List Instruction}, Instruction.EndToEnd start instructions stop →
      start + (instructions.map Instruction.size).sum = stop := by
    intro start stop instructions hends
    induction instructions generalizing start with
    | nil => exact hends
    | cons i rest ih =>
      obtain ⟨rfl, hends⟩ := hends
      rw [List.map_cons, List.sum_cons, ← Nat.add_assoc]
      exact ih hends
  have hwhole := hsum h.endToEnd
  rwa [Nat.zero_add] at hwhole

end Laid

/-! ## What is decoded, and what is blamed -/

/-- A body tiles its code exactly. -/
structure TilesExactly (b : Body) (code : List UInt8) : Prop where
  /-- Every instruction is what is decoded at its position. -/
  decoded : ∀ (index : Nat) (i : Instruction), b.get? index = some i → Instruction.decode code i.position = .ok i
  /-- Positions are running sums of sizes. -/
  position_eq : ∀ (index : Nat) (i : Instruction), b.get? index = some i →
    i.position = ((b.toList.take index).map Instruction.size).sum
  size_pos : ∀ i ∈ b.toList, 1 ≤ i.size
  sum_size : (b.toList.map Instruction.size).sum = code.length
  codeLength_eq : b.codeLength = code.length
  /-- Exactly the positions of instructions have an index. -/
  indexOf_iff : ∀ position index : Nat,
    b.indexOf? position = some index ↔ ∃ i, b.get? index = some i ∧ i.position = position
  /-- Exactly the positions of instructions have an instruction. -/
  startingAt_iff : ∀ (position : Nat) (i : Instruction),
    b.startingAt? position = some i ↔ i ∈ b.toList ∧ i.position = position
  /-- Every position that is named is the start of an instruction. -/
  target_start : ∀ i ∈ b.toList, ∀ t ∈ i.targets, ∃ i' ∈ b.toList, i'.position = t
  /-- Keys of a lookup ascend strictly. -/
  keys_ascend : ∀ i ∈ b.toList, ∀ default pairs, i.flow = .select default (.lookup pairs) →
    (pairs.map Prod.fst).Pairwise (· < ·)
  /-- A table has an entry for each key from its low word to its high word, and at least one. -/
  table_length : ∀ i ∈ b.toList, ∀ default low entries, i.flow = .select default (.table low entries) →
    let words := i.position + 1 + Opcode.switchPadding i.position
    low = Instruction.wordAt code (words + 4) ∧
      (entries.length : Int) = (Instruction.wordAt code (words + 8)).toInt - low.toInt + 1 ∧ 1 ≤ entries.length

/-- What is wrong with code, and where: an instruction is reached that cannot be decoded, or that names a position
that is not reached. -/
def Blames (code : List UInt8) (error : VerifyError) : Prop :=
  ∃ position fault, error = .located position fault ∧ Reached code position ∧ position < code.length ∧
    (Instruction.decode code position = .error error ∨
      ∃ i t, Instruction.decode code position = .ok i ∧ t ∈ i.targets ∧ ¬ Reached code t ∧
        fault = .invalidTarget t)

theorem Tiles.tilesExactly (h : Tiles code b) : b.TilesExactly code where
  decoded index i hi := Instruction.decode_eq_ok.mpr (h.decodes hi)
  position_eq index i hi := h.position_eq_sum hi
  size_pos i hi := by
    obtain ⟨index, hi⟩ := mem_toList.mp hi
    exact (h.decodes hi).size_pos
  sum_size := h.sum_size
  codeLength_eq := h.codeLength_eq
  indexOf_iff position index := h.indexOf?_eq_some_iff
  startingAt_iff position i := by
    rw [h.startingAt?_eq_some_iff, mem_toList, and_comm]
  target_start i hi t ht := by
    obtain ⟨index, hi⟩ := mem_toList.mp hi
    obtain ⟨index', i', hi', hstart⟩ := h.target_start hi ht
    exact ⟨i', mem_toList.mpr ⟨index', hi'⟩, hstart⟩
  keys_ascend i hi default pairs hflow := by
    obtain ⟨index, hi⟩ := mem_toList.mp hi
    exact (h.decodes hi).keys_pairwise hflow
  table_length i hi default low entries hflow := by
    obtain ⟨index, hi⟩ := mem_toList.mp hi
    have hbounds := (h.decodes hi).table_bounds hflow
    simp only [Instruction.wordAt_drop, ← Nat.add_assoc] at hbounds
    exact hbounds

/-- Scanning fails at a position that is reached. -/
theorem blames_of_scanOnto {front result : Tiling Instruction} {position : Nat} {rest : List UInt8}
    {error : VerifyError} (hreached : Reached code position) (hrest : rest = code.drop position)
    (h : scanOnto code.length front position rest = (result, some error)) : Blames code error := by
  fun_induction scanOnto code.length front position rest with
  | case1 => simp at h
  | case2 front position opcode operands fault hdecode =>
    obtain ⟨-, herror⟩ := Prod.mk.inj h
    obtain rfl := Option.some.inj herror
    rw [hrest] at hdecode
    exact ⟨position, fault, rfl, hreached, lt_length_of_drop hrest,
      Or.inl (Instruction.decode_eq_error.mpr ⟨fault, hdecode, rfl⟩)⟩
  | case3 front position opcode operands i hdecode ih =>
    have hpos := (Instruction.decodeFrom_eq_ok.mp hdecode).size_pos
    have hnext : Reached code (position + i.size) := by
      rw [hrest] at hdecode
      exact .next hreached (Instruction.decode_eq_ok.mpr (Instruction.decodeFrom_eq_ok.mp hdecode))
    exact ih hnext (drop_operands hpos hrest) h

/-- A target is stray if it is not reached. -/
theorem Laid.blames_of_strayTarget? (hlaid : Laid code b) {error : VerifyError} (h : b.strayTarget? = some error) :
    Blames code error := by
  unfold strayTarget? at h
  obtain ⟨i, hi, hstray⟩ := List.exists_of_findSome?_eq_some h
  obtain ⟨_, hfound, rfl⟩ := Option.map_eq_some_iff.mp hstray
  obtain ⟨t, hfind, htarget⟩ := Option.bind_eq_some_iff.mp hfound
  obtain rfl := Option.some.inj htarget
  obtain ⟨index, hi⟩ := mem_toList.mp hi
  have ht : t ∈ i.targets := List.mem_of_find?_eq_some hfind
  have hnone : b.indexOf? t = none := by simpa using List.find?_some hfind
  refine ⟨i.position, .invalidTarget t, rfl, hlaid.reached hi, hlaid.position_lt_length hi, Or.inr ?_⟩
  refine ⟨i, t, Instruction.decode_eq_ok.mpr (hlaid.decodes hi), ht, ?_, rfl⟩
  intro hreached
  rcases hlaid.start_of_reached hreached with rfl | ⟨index', i', hi', hstart⟩
  · exact Nat.lt_irrefl _ ((hlaid.decodes hi).target_lt ht)
  · have hsome := hlaid.indexOf?_eq_some_iff.mpr ⟨i', hi', hstart⟩
    simp [hnone] at hsome

theorem blames_of_decode (hfits : code.length < 2 ^ 64) {error : VerifyError} (h : decode code = .error error) :
    Blames code error := by
  unfold decode at h
  split at h
  · rename_i result found hscan
    obtain rfl := Except.error.inj h
    exact blames_of_scanOnto .start rfl hscan
  · rename_i instructions hscan
    dsimp only at h
    split at h
    · rename_i found hstray
      obtain rfl := Except.error.inj h
      exact (laid_of_scan hfits hscan).blames_of_strayTarget? hstray
    · simp at h

/-- Decoding stays inside the code and ends; what it gives tiles the code exactly, and what it blames is an
instruction that the tiling comes to. -/
theorem decode_exact (code : List UInt8) (hfits : code.length < 2 ^ 64) :
    decodeWithin? code = some (decode code) ∧ (∀ b, decode code = .ok b → b.TilesExactly code) ∧
      ∀ error, decode code = .error error → Blames code error := by
  refine ⟨decodeWithin?_eq code, ?_, ?_⟩
  · intro b hdecode
    exact (decode_tiles hdecode hfits).tilesExactly
  · intro error hdecode
    exact blames_of_decode hfits hdecode

/-- A table, a lookup and a widened instruction. -/
def switches : List UInt8 :=
  [0x03, 0xAA, 0, 0, 0, 0, 0, 23, 0xFF, 0xFF, 0xFF, 0xFF, 0, 0, 0, 0, 0, 0, 0, 51, 0, 0, 0, 57,
    0x03, 0xAB, 0, 0, 0, 0, 0, 33, 0, 0, 0, 2, 0xFF, 0xFF, 0xFF, 0xFB, 0, 0, 0, 27, 0, 0, 0, 7, 0xFF, 0xFF, 0xFF, 0xE7,
    0xC4, 0x84, 0, 0, 0, 1, 0xB1]

theorem decode_exact_switches :
    (∃ b, decode switches = .ok b ∧ b.size = 6 ∧ b.TilesExactly switches) ∧
      Blames (switches.take 5) (.located 1 .truncatedInstruction) ∧
      Blames [0x00, 0xA7, 0, 1] (.located 1 (.invalidTarget 2)) := by
  refine ⟨?_, ?_, ?_⟩
  · have hsize : (decode switches).toOption.map size = some 6 := by decide +kernel
    obtain ⟨b, hdecode, hsize⟩ := Option.map_eq_some_iff.mp hsize
    have hdecode := toOption_eq_some.mp hdecode
    exact ⟨b, hdecode, hsize, (decode_exact switches (by decide)).2.1 b hdecode⟩
  · exact (decode_exact (switches.take 5) (by decide)).2.2 _ (errorOf?_eq_some.mp (by decide +kernel))
  · exact (decode_exact [0x00, 0xA7, 0, 1] (by decide)).2.2 _ (errorOf?_eq_some.mp (by decide +kernel))

end Body

end Bytecode
