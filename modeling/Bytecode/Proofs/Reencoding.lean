import Bytecode.Proofs.ClassReading

/-!
# Instructions that stay where they are

A branch or switch that is encoded anew where it was, with its targets where they were, gets the bytes that it was
decoded from.  What stands between the opcode of a switch and its operands is never read, and becomes zero.

* `Instruction.longOffset_of_read`, `Instruction.shortOffset_of_read`: a displacement is written as it was read;
* `Instruction.cleared`, `Body.cleared`: bytes of an instruction and of a body, with zeros for padding;
* `Instruction.relocated_in_place`: what is encoded anew in its old place are the old bytes, cleared;
* `Instruction.EndToEnd`: instructions that each start where the one in front ends, as those of a body do;
* `Body.decode_congr`: code in which the same instructions are decoded at their positions decodes to the same body.
-/

namespace Bytecode

/-- A number is written with the bytes that it was read from. -/
theorem Binary.bigEndian_ofBigEndian (bytes : List UInt8) : bigEndian bytes.length (ofBigEndian bytes) = bytes := by
  induction bytes using List.reverseRecOn with
  | nil => rfl
  | append_singleton bytes b ih =>
    have hb := b.toNat_lt
    have hvalue : ofBigEndian (bytes ++ [b]) = ofBigEndian bytes * 256 + b.toNat := by
      simp [ofBigEndian, List.foldl_append]
    have hfront : (ofBigEndian bytes * 256 + b.toNat) / 256 = ofBigEndian bytes := by omega
    have hlast : UInt8.ofNat (ofBigEndian bytes * 256 + b.toNat) = b := by
      rw [← UInt8.toNat_inj, UInt8.toNat_ofNat']
      omega
    rw [List.length_append, List.length_singleton, bigEndian, hvalue, hfront, hlast, ih]

/-- A flow whose targets stay is the same flow. -/
theorem Flow.Moved.eq_of_stays {R : Nat → Nat → Prop} {flow moved : Flow} (h : flow.Moved R moved)
    (hstays : ∀ t ∈ flow.targets, ∀ u, R t u → t = u) : flow = moved := by
  have hsame := h.mono hstays
  cases hsame with
  | plain op => rfl
  | branch htarget => rw [htarget]
  | select hdefault hcases =>
    rw [hdefault]
    cases hcases with
    | table htargets =>
      rw [List.forall₂_eq_eq_eq] at htargets
      rw [htargets]
    | lookup hpairs =>
      have hpairs := hpairs.imp fun p q hpq => Prod.ext hpq.1 hpq.2
      rw [List.forall₂_eq_eq_eq] at hpairs
      rw [hpairs]

namespace Instruction

/-! ## Operands that are written as they were read -/

variable {length position count : Nat} {input rest : List UInt8}

theorem bytes_of_operand {n : Nat} (h : operand count input = .ok (n, rest)) :
    n < 256 ^ count ∧ input = Binary.bigEndian count n ++ rest := by
  obtain ⟨hle, rfl, rfl⟩ := operand_eq_ok.mp h
  have hlength : (input.take count).length = count := List.length_take_of_le hle
  have hlt := Binary.ofBigEndian_lt (input.take count)
  have hbytes := Binary.bigEndian_ofBigEndian (input.take count)
  rw [hlength] at hlt hbytes
  exact ⟨hlt, by rw [hbytes, List.take_append_drop]⟩

theorem bytes_of_int32Operand {d : Int32} (h : int32Operand input = .ok (d, rest)) : input = write d ++ rest := by
  obtain ⟨n, _, hn, heq⟩ := state_map_eq_ok.mp h
  obtain ⟨rfl, rfl⟩ := Prod.mk.inj heq
  obtain ⟨hlt, hbytes⟩ := bytes_of_operand hn
  have hvalue : (UInt32.ofNat n).toNat = n := UInt32.toNat_ofNat_of_lt' hlt
  show input = Binary.bigEndian 4 (UInt32.ofNat n).toNat ++ rest
  rw [hvalue]
  exact hbytes

theorem bytes_of_longDistance {distance : Int} (h : longDistance input = .ok (distance, rest)) :
    ∃ d : Int32, d.toInt = distance ∧ input = write d ++ rest := by
  obtain ⟨n, _, hn, heq⟩ := state_map_eq_ok.mp h
  obtain ⟨rfl, rfl⟩ := Prod.mk.inj heq
  exact ⟨_, rfl, bytes_of_int32Operand (state_map_eq_ok.mpr ⟨n, _, hn, rfl⟩)⟩

theorem bytes_of_shortDistance {distance : Int} (h : shortDistance input = .ok (distance, rest)) :
    ∃ d : Int16, d.toInt = distance ∧ input = write d ++ rest := by
  obtain ⟨n, _, hn, heq⟩ := state_map_eq_ok.mp h
  obtain ⟨rfl, rfl⟩ := Prod.mk.inj heq
  obtain ⟨hlt, hbytes⟩ := bytes_of_operand hn
  have hvalue : (UInt16.ofNat n).toNat = n := UInt16.toNat_ofNat_of_lt' hlt
  refine ⟨_, rfl, ?_⟩
  show input = Binary.bigEndian 2 (UInt16.ofNat n).toNat ++ rest
  rw [hvalue]
  exact hbytes

theorem distance_of_targetAt {target : Nat} {d : Int} (hlength : length ≤ 2 ^ 63) (hposition : position < 2 ^ 63)
    (h : targetAt length position d = .ok target) : distance position target = d := by
  unfold targetAt at h
  dsimp only at h
  split at h
  · simp at h
  · rename_i hinside
    obtain rfl := Except.ok.inj h
    unfold distance
    rw [Word.signed_sub_of_lt (by omega) hposition]
    omega

/-- A displacement of four bytes is written as it was read. -/
theorem longOffset_of_read {target : Nat} {d : Int} (hlength : length ≤ 2 ^ 63) (hposition : position < 2 ^ 63)
    (hdistance : longDistance input = .ok (d, rest)) (htarget : targetAt length position d = .ok target) :
    ∃ offset, longOffset position target = .ok offset ∧ input = write offset ++ rest := by
  obtain ⟨offset, rfl, hbytes⟩ := bytes_of_longDistance hdistance
  refine ⟨offset, ?_, hbytes⟩
  have hlow := offset.le_toInt
  have hhigh := offset.toInt_lt
  unfold longOffset
  rw [distance_of_targetAt hlength hposition htarget]
  simp only [Int32.ofInt_toInt]
  rw [if_pos (by omega)]

/-- A displacement of two bytes is written as it was read. -/
theorem shortOffset_of_read {target : Nat} {d : Int} (hlength : length ≤ 2 ^ 63) (hposition : position < 2 ^ 63)
    (hdistance : shortDistance input = .ok (d, rest)) (htarget : targetAt length position d = .ok target) :
    ∃ offset, shortOffset position target = .ok offset ∧ input = write offset ++ rest := by
  obtain ⟨offset, rfl, hbytes⟩ := bytes_of_shortDistance hdistance
  refine ⟨offset, ?_, hbytes⟩
  have hlow := offset.le_toInt
  have hhigh := offset.toInt_lt
  unfold shortOffset
  rw [distance_of_targetAt hlength hposition htarget]
  simp only [Int16.ofInt_toInt]
  rw [if_pos (by omega)]

/-! ## Switches -/

/-- The positions of a table are written as they were read. -/
theorem distances_of_tableTargets {front targets : List Nat} (hlength : length ≤ 2 ^ 63)
    (hposition : position < 2 ^ 63) (h : tableTargets length position count front input = .ok (targets, rest)) :
    ∃ new distances, targets = front.reverse ++ new ∧
      List.Forall₂ (fun t d => longOffset position t = .ok d) new distances ∧
      input = distances.flatMap write ++ rest := by
  induction count generalizing front input with
  | zero =>
    simp only [tableTargets, state_pure_eq_ok, Prod.mk.injEq] at h
    exact ⟨[], [], by rw [List.append_nil, h.1], .nil, h.2⟩
  | succ count ih =>
    obtain ⟨d, _, target, hdistance, htarget, h⟩ := tableTargets_succ_eq_ok.mp h
    obtain ⟨offset, hoffset, hinput⟩ := longOffset_of_read hlength hposition hdistance htarget
    obtain ⟨new, distances, hnew, hall, hrest⟩ := ih h
    refine ⟨target :: new, offset :: distances, ?_, .cons hoffset hall, ?_⟩
    · rw [hnew, List.reverse_cons, List.append_assoc]
      rfl
    · rw [hinput, hrest, List.flatMap_cons, List.append_assoc]

/-- The pairs of a lookup are written as they were read. -/
theorem entries_of_lookupPairs {front pairs : List (Int32 × Nat)} (hlength : length ≤ 2 ^ 63)
    (hposition : position < 2 ^ 63) (h : lookupPairs length position count front input = .ok (pairs, rest)) :
    ∃ new entries, pairs = front.reverse ++ new ∧
      List.Forall₂ (fun p bytes => ∃ d, bytes = write p.1 ++ write d ∧ longOffset position p.2 = .ok d) new entries ∧
      input = entries.flatten ++ rest := by
  induction count generalizing front input with
  | zero =>
    simp only [lookupPairs, state_pure_eq_ok, Prod.mk.injEq] at h
    exact ⟨[], [], by rw [List.append_nil, h.1], .nil, h.2⟩
  | succ count ih =>
    obtain ⟨key, _, d, _, target, hkey, hdistance, -, htarget, h⟩ := lookupPairs_succ_eq_ok.mp h
    obtain ⟨offset, hoffset, hinput⟩ := longOffset_of_read hlength hposition hdistance htarget
    obtain ⟨new, entries, hnew, hall, hrest⟩ := ih h
    refine ⟨(key, target) :: new, (write key ++ write offset) :: entries, ?_, .cons ⟨offset, rfl, hoffset⟩ hall, ?_⟩
    · rw [hnew, List.reverse_cons, List.append_assoc]
      rfl
    · rw [bytes_of_int32Operand hkey, hinput, hrest, List.flatten_cons, List.append_assoc, List.append_assoc]

variable {place : Nat → Except VerifyError Nat}

/-- The operands of a switch whose targets stay are written as they were read. -/
theorem switch_in_place {opcode : UInt8} {size default : Nat} {cases : Cases} (hlength : length ≤ 2 ^ 63)
    (hposition : position < 2 ^ 63) (hopcode : opcode = Opcode.tableswitch ∨ opcode = Opcode.lookupswitch)
    (h : switchOperands length position opcode input = .ok ((size, default, cases), rest))
    (hplace : ∀ t ∈ default :: cases.targets, place t = .ok t) :
    ∃ d bytes, switchDistance place position default = .ok d ∧ relocatedCases place position cases = .ok bytes ∧
      input = write d ++ bytes ++ rest ∧ (write d ++ bytes).length = size := by
  have hstays : ∀ {t : Nat} {d : Int32}, t ∈ default :: cases.targets → longOffset position t = .ok d →
      switchDistance place position t = .ok d := by
    intro t d ht hd
    exact switchDistance_eq_ok.mpr ⟨t, hplace t ht, hd⟩
  rcases hopcode with rfl | rfl
  · obtain ⟨_, _, low, _, high, _, targets, hdistance, hdefault, hlow, hhigh, horder, -, htargets, rfl, rfl⟩ :=
      switchOperands_table_eq_ok.mp h
    obtain ⟨offset, hoffset, rfl⟩ := longOffset_of_read hlength hposition hdistance hdefault
    obtain ⟨new, distances, hnew, hall, rfl⟩ := distances_of_tableTargets hlength hposition htargets
    obtain rfl : targets = new := by simpa using hnew
    obtain rfl := bytes_of_int32Operand hlow
    obtain rfl := bytes_of_int32Operand hhigh
    have hcount : targets.length = tableCount low high := by
      have := length_of_tableTargets htargets
      simpa using this
    have hmap : targets.mapM (switchDistance place position) = .ok distances :=
      mapM_eq_ok.mpr (forall₂_imp_mem hall fun t ht d hd => hstays (List.mem_cons_of_mem _ ht) hd)
    refine ⟨offset, write low ++ write high ++ distances.flatMap write, hstays (List.mem_cons_self ..) hoffset,
      ?_, ?_, ?_⟩
    · refine bind_eq_ok.mpr ⟨distances, hmap, ?_⟩
      rw [hcount, high_of_tableCount horder]
      rfl
    · simp only [List.append_assoc]
    · simp only [List.length_append, length_write_int32, length_flatMap_write, ← hall.length_eq, hcount]
      omega
  · obtain ⟨_, _, count, _, pairs, hdistance, hdefault, hcount, hsign, -, hpairs, rfl, rfl⟩ :=
      switchOperands_lookup_eq_ok.mp h
    obtain ⟨offset, hoffset, rfl⟩ := longOffset_of_read hlength hposition hdistance hdefault
    obtain ⟨new, entries, hnew, hall, rfl⟩ := entries_of_lookupPairs hlength hposition hpairs
    obtain rfl : pairs = new := by simpa using hnew
    obtain rfl := bytes_of_int32Operand hcount
    have hlength' : pairs.length = count.toInt.toNat := by
      have := length_of_lookupPairs hpairs
      simpa using this
    refine ⟨offset, write count ++ entries.flatten, hstays (List.mem_cons_self ..) hoffset, ?_, ?_, ?_⟩
    · refine bind_eq_ok.mpr ⟨entries, mapM_eq_ok.mpr (forall₂_imp_mem hall ?_), ?_⟩
      · rintro ⟨key, target⟩ hp _ ⟨d, rfl, hd⟩
        exact bind_eq_ok.mpr ⟨d, hstays (List.mem_cons_of_mem _ (List.mem_map_of_mem hp)) hd, rfl⟩
      · rw [hlength', ofNat_of_count hsign]
        rfl
    · simp only [List.append_assoc]
    · simp only [List.length_append, length_write_int32, length_flatten_entries hall, hlength']
      omega

/-! ## Padding -/

/-- Number of bytes between the opcode and the operands that are not read. -/
def padding (i : Instruction) : Nat :=
  match i.flow with
  | .select _ _ => Opcode.switchPadding i.position
  | _ => 0

/-- The bytes of an instruction, with zeros for padding. -/
def cleared (i : Instruction) (piece : List UInt8) : List UInt8 :=
  piece.mapIdx fun k byte => if 1 ≤ k ∧ k ≤ i.padding then 0 else byte

theorem cleared_of_padding_eq_zero {i : Instruction} (h : i.padding = 0) (piece : List UInt8) :
    i.cleared piece = piece := by
  unfold cleared
  rw [h]
  refine List.ext_getElem? fun k => ?_
  rw [List.getElem?_mapIdx]
  simp only [if_neg (show ¬ (1 ≤ k ∧ k ≤ 0) by omega), Option.map_id']

theorem cleared_cons {i : Instruction} {opcode : UInt8} {unread operands : List UInt8}
    (h : unread.length = i.padding) :
    i.cleared (opcode :: (unread ++ operands)) = opcode :: (List.replicate i.padding 0 ++ operands) := by
  unfold cleared
  rw [List.mapIdx_cons, List.mapIdx_append]
  congr 2
  · refine List.ext_getElem? fun k => ?_
    rw [List.getElem?_mapIdx, List.getElem?_replicate]
    by_cases hk : k < i.padding
    · simp [hk, h, show k + 1 ≤ i.padding by omega]
    · simp [hk, h]
  · refine List.ext_getElem? fun k => ?_
    rw [List.getElem?_mapIdx]
    simp [h, show ¬ k + i.padding + 1 ≤ i.padding by omega]

theorem Decodes.padding_lt {i : Instruction} (h : Decodes length position input i) : i.padding < i.size := by
  unfold padding
  split
  · rename_i default cases hflow
    obtain ⟨_, _, _, size, -, -, -, rfl⟩ := h.select_inv hflow
    show Opcode.switchPadding position < 1 + Opcode.switchPadding position + size
    omega
  · exact h.size_pos

theorem Decodes.relocatedSize_self {i : Instruction} (h : Decodes length position input i) :
    i.relocatedSize i.position = i.size := by
  have hpadding := h.padding_lt
  unfold relocatedSize
  unfold padding at hpadding
  split
  · rename_i hflow
    simp only [hflow] at hpadding
    omega
  · rfl

/-- A branch or switch that is encoded anew in its place, with its targets in theirs, has the bytes that it was decoded
from, up to padding. -/
theorem relocated_in_place {i : Instruction} (hlength : length ≤ 2 ^ 63) (hposition : position < 2 ^ 63)
    (hi : Decodes length position input i)
    (hflow : (∃ kind target, i.flow = .branch kind target) ∨ ∃ default cases, i.flow = .select default cases)
    (hplace : ∀ t ∈ i.targets, place t = .ok t) :
    i.relocated position place = .ok (i.cleared (input.take i.size)) := by
  unfold relocated
  cases hi with
  | widened h =>
    rcases flow_of_widened h with ⟨op, rfl⟩ | ⟨index, rfl⟩
    · simp at hflow
    · simp at hflow
  | @switch operands rest opcode size default cases hopcode hpadding h =>
    obtain ⟨d, bytes, hd, hbytes, hinput, hsize⟩ := switch_in_place hlength hposition hopcode h hplace
    have hlong : (write d ++ bytes ++ rest).length = operands.length - Opcode.switchPadding position := by
      rw [← hinput, List.length_drop]
    rw [List.length_append, List.length_append, length_write_int32] at hlong
    have hunread : (operands.take (Opcode.switchPadding position)).length = Opcode.switchPadding position :=
      List.length_take_of_le (by omega)
    have hpiece : (opcode :: operands).take (1 + Opcode.switchPadding position + size)
        = opcode :: (operands.take (Opcode.switchPadding position) ++ (write d ++ bytes)) := by
      rw [Nat.add_assoc, Nat.add_comm 1, List.take_succ_cons, List.take_add, hinput, List.take_left' hsize]
    refine bind_eq_ok.mpr ⟨d, hd, bind_eq_ok.mpr ⟨bytes, hbytes, ?_⟩⟩
    rw [pure_eq_ok, hpiece, cleared_cons hunread, List.append_assoc]
    rfl
  | @fixed operands rest opcode size flow hopcode hsize hfits h =>
    cases h with
    | @shortBranch _ _ _ distance target hshort hdistance htarget =>
      obtain ⟨offset, hoffset, rfl⟩ := shortOffset_of_read hlength hposition hdistance htarget
      obtain rfl : 3 = size := Option.some.inj ((fixedLength?_of_isShortBranch hshort).symm.trans hsize)
      refine bind_eq_ok.mpr ⟨target, hplace target (List.mem_singleton.mpr rfl), ?_⟩
      rw [if_neg hshort.ne_gotoW]
      refine bind_eq_ok.mpr ⟨offset, ofExcept_eq_ok.mpr hoffset, ?_⟩
      rw [pure_eq_ok, cleared_of_padding_eq_zero rfl, List.take_succ_cons, List.take_left' (length_write_int16 offset)]
    | @longBranch _ _ distance target hdistance htarget =>
      obtain ⟨offset, hoffset, rfl⟩ := longOffset_of_read hlength hposition hdistance htarget
      have hfixed : Opcode.fixedLength? Opcode.gotoW = some 5 := by decide
      obtain rfl : 5 = size := Option.some.inj (hfixed.symm.trans hsize)
      refine bind_eq_ok.mpr ⟨target, hplace target (List.mem_singleton.mpr rfl), ?_⟩
      rw [if_pos rfl]
      refine bind_eq_ok.mpr ⟨offset, ofExcept_eq_ok.mpr hoffset, ?_⟩
      rw [pure_eq_ok, cleared_of_padding_eq_zero rfl, List.take_succ_cons, List.take_left' (length_write_int32 offset)]
    | shortCall => simp at hflow
    | longCall => simp at hflow
    | ret => simp at hflow
    | plain => simp at hflow

/-! ## Instructions end to end -/

/-- The instructions start one after the other, from one position up to another. -/
def EndToEnd : (start : Nat) → List Instruction → (stop : Nat) → Prop
  | start, [], stop => start = stop
  | start, i :: rest, stop => i.position = start ∧ EndToEnd i.next rest stop

variable {start stop : Nat} {instructions : List Instruction}

/-- The instructions, and the end, are not in front of the start. -/
theorem EndToEnd.le_boundary (h : EndToEnd start instructions stop) {p : Nat}
    (hp : (∃ i ∈ instructions, i.position = p) ∨ p = stop) : start ≤ p := by
  induction instructions generalizing start with
  | nil =>
    obtain rfl := hp.resolve_left (by simp)
    exact Nat.le_of_eq h
  | cons i rest ih =>
    obtain ⟨rfl, h⟩ := h
    rcases hp with ⟨j, hj, rfl⟩ | hend
    · rcases List.mem_cons.mp hj with rfl | hj
      · exact Nat.le_refl _
      · exact Nat.le_trans (Nat.le_add_right _ _) (ih h (Or.inl ⟨j, hj, rfl⟩))
    · exact Nat.le_trans (Nat.le_add_right _ _) (ih h (Or.inr hend))

/-- The pieces of the instructions make up the whole. -/
theorem EndToEnd.flatten_pieces (h : EndToEnd start instructions stop) {bytes : List UInt8}
    (hstop : bytes.length = stop) :
    (instructions.map fun i => (bytes.drop i.position).take i.size).flatten = bytes.drop start := by
  induction instructions generalizing start with
  | nil =>
    obtain rfl : start = stop := h
    rw [← hstop, List.drop_length]
    rfl
  | cons i rest ih =>
    obtain ⟨rfl, h⟩ := h
    rw [List.map_cons, List.flatten_cons, ih h, Instruction.next, ← List.drop_drop, List.take_append_drop]

end Instruction

namespace Body

/-! ## Whole bodies -/

variable {code bytes : List UInt8} {b : Body} {index : Nat} {i : Instruction}

/-- Does a position lie between the opcode of a switch and its operands? -/
def IsPadding (b : Body) (position : Nat) : Prop :=
  ∃ i ∈ b.toList, i.position < position ∧ position ≤ i.position + i.padding

instance (b : Body) : DecidablePred b.IsPadding := fun position =>
  inferInstanceAs (Decidable (∃ i ∈ b.toList, i.position < position ∧ position ≤ i.position + i.padding))

/-- Code with zeros for padding. -/
def cleared (b : Body) (code : List UInt8) : List UInt8 :=
  code.mapIdx fun position byte => if b.IsPadding position then 0 else byte

theorem length_cleared (b : Body) (code : List UInt8) : (b.cleared code).length = code.length :=
  List.length_mapIdx

theorem mem_toList : i ∈ b.toList ↔ ∃ index, b.get? index = some i := by
  rw [List.mem_iff_getElem?]
  simp only [getElem?_toList]

theorem mem_zipIdx_toList : (i, index) ∈ b.toList.zipIdx ↔ b.get? index = some i := by
  rw [List.mem_zipIdx_iff_getElem?, getElem?_toList]

namespace Laid

theorem endToEnd (h : Laid code b) : Instruction.EndToEnd 0 b.toList code.length := by
  -- what is left behind some instructions starts where the last of them ends
  suffices hrest : ∀ rest start index, b.toList.drop index = rest →
      (∀ i, b.get? index = some i → i.position = start) →
      (b.size ≤ index → start = code.length) → Instruction.EndToEnd start rest code.length by
    refine hrest b.toList 0 0 rfl (fun i hi => h.position_zero hi) fun hempty => ?_
    exact (h.scanned.empty (Nat.le_zero.mp hempty)).symm
  intro rest
  induction rest with
  | nil =>
    intro start index hdrop _ hend
    refine hend (Nat.le_of_not_lt fun hlt => ?_)
    obtain ⟨i, hi⟩ := Option.isSome_iff_exists.mp (get?_isSome_iff.mpr hlt)
    rw [← getElem?_toList] at hi
    have hlt' := (List.getElem?_eq_some_iff.mp hi).1
    have hle := List.drop_eq_nil_iff.mp hdrop
    omega
  | cons i rest ih =>
    intro start index hdrop hstart _
    have hi : b.get? index = some i := by
      rw [← getElem?_toList, ← List.head?_drop, hdrop]
      rfl
    refine ⟨hstart i hi, ih i.next (index + 1) ?_ (fun i' hi' => h.position_succ hi hi') (h.next_eq_length hi)⟩
    rw [← List.drop_drop, hdrop]
    rfl

theorem next_le_position (h : Laid code b) {index' : Nat} {i' : Instruction} (hi : b.get? index = some i)
    (hi' : b.get? index' = some i') (hlt : index < index') : i.next ≤ i'.position := by
  obtain ⟨behind, hbehind⟩ := b.exists_get? (index + 1)
    (Nat.lt_of_le_of_lt hlt (get?_isSome_iff.mp (Option.isSome_of_eq_some hi')))
  rw [← h.position_succ hi hbehind]
  rcases Nat.lt_or_eq_of_le (show index + 1 ≤ index' from hlt) with hmore | rfl
  · exact Nat.le_of_lt (h.position_lt hmore hbehind hi')
  · rw [hbehind] at hi'
    exact Nat.le_of_eq (congrArg Instruction.position (Option.some.inj hi'))

/-- Inside of an instruction, only its own padding is padding. -/
theorem isPadding_iff (h : Laid code b) (hi : b.get? index = some i) {k : Nat} (hk : k < i.size) :
    b.IsPadding (i.position + k) ↔ 1 ≤ k ∧ k ≤ i.padding := by
  constructor
  · rintro ⟨j, hj, hbehind, hinside⟩
    obtain ⟨index', hj⟩ := mem_toList.mp hj
    have hpadding := (h.decodes hj).padding_lt
    -- padding ends before its instruction does, so it cannot reach into another one
    obtain rfl : index = index' := by
      rcases Nat.lt_trichotomy index index' with hlt | heq | hgt
      · have := h.next_le_position hi hj hlt
        unfold Instruction.next at this
        omega
      · exact heq
      · have := h.next_le_position hj hi hgt
        unfold Instruction.next at this
        omega
    obtain rfl := Option.some.inj (hi.symm.trans hj)
    omega
  · rintro ⟨hpos, hle⟩
    exact ⟨i, mem_toList.mpr ⟨index, hi⟩, by omega, by omega⟩

/-- The bytes of an instruction in cleared code. -/
theorem take_drop_cleared (h : Laid code b) (hi : b.get? index = some i) :
    ((b.cleared code).drop i.position).take i.size = i.cleared ((code.drop i.position).take i.size) := by
  refine List.ext_getElem? fun k => ?_
  unfold Body.cleared Instruction.cleared
  rw [List.getElem?_mapIdx]
  by_cases hk : k < i.size
  · simp only [List.getElem?_take_of_lt hk, List.getElem?_drop, List.getElem?_mapIdx, h.isPadding_iff hi hk]
  · simp only [List.getElem?_take_eq_none (Nat.le_of_not_lt hk), Option.map_none]

end Laid

/-- Scanning keeps the instructions that are already there. -/
theorem getElem?_scanOnto {length position : Nat} {front : Tiling Instruction} {rest : List UInt8} {j : Nat}
    {tile : Nat × Instruction} (h : front.tiles[j]? = some tile) :
    (scanOnto length front position rest).1.tiles[j]? = some tile := by
  fun_induction Body.scanOnto length front position rest with
  | case1 => exact h
  | case2 => exact h
  | case3 front position opcode operands i hdecode ih =>
    refine ih ?_
    show (front.tiles.push _)[j]? = some tile
    rw [Array.getElem?_push, if_neg (Nat.ne_of_lt (Array.getElem?_eq_some_iff.mp h).1)]
    exact h

/-- Scanning other code finds the same instructions, if each of them is decoded in its place there. -/
theorem scanOnto_congr {length position : Nat} {front result : Tiling Instruction} {rest : List UInt8}
    (hrest : rest = code.drop position) (h : scanOnto length front position rest = (result, none))
    (hlength : bytes.length = code.length)
    (hdecodes : ∀ (j offset : Nat) (i : Instruction), result.tiles[j]? = some (offset, i) →
      i.Decodes length i.position (bytes.drop i.position)) :
    scanOnto length front position (bytes.drop position) = (result, none) := by
  fun_induction Body.scanOnto length front position rest with
  | case1 front position =>
    have hend := List.drop_eq_nil_iff.mp hrest.symm
    rw [List.drop_eq_nil_of_le (by omega), scanOnto]
    exact h
  | case2 => simp at h
  | case3 front position opcode operands i hdecode ih =>
    have hi := Instruction.decodeFrom_eq_ok.mp hdecode
    have hpos := hi.size_pos
    -- a cons cell and its tail, dropped by the size of the instruction
    have hskip : ∀ (first : UInt8) (others : List UInt8),
        others.drop (i.size - 1) = (first :: others).drop i.size := by
      intro first others
      obtain ⟨size, hsize⟩ := Nat.exists_eq_add_of_le' hpos
      rw [hsize]
      rfl
    have htile : result.tiles[front.tiles.size]? = some (front.stop, i) := by
      have hresult : (scanOnto length (front.push i) (position + i.size) (operands.drop (i.size - 1))).1 = result := by
        rw [h]
      rw [← hresult]
      refine getElem?_scanOnto ?_
      show (front.tiles.push (front.stop, i))[front.tiles.size]? = _
      rw [Array.getElem?_push_size]
    have hagain := hdecodes _ _ _ htile
    rw [hi.position_eq] at hagain
    have hnext := ih (by rw [hskip opcode, hrest, List.drop_drop]) h
    rw [← List.drop_drop] at hnext
    generalize bytes.drop position = tail at hagain hnext ⊢
    cases tail with
    | nil => cases hagain
    | cons opcode' operands' =>
      rw [scanOnto, Instruction.decodeFrom_eq_ok.mpr hagain]
      dsimp only
      rw [hskip opcode']
      exact hnext

/-- Code in which the same instructions are decoded at their positions decodes to the same body. -/
theorem decode_congr (h : decode code = .ok b) (hlength : bytes.length = code.length)
    (hdecodes : ∀ (index : Nat) (i : Instruction), b.get? index = some i →
      i.Decodes code.length i.position (bytes.drop i.position)) : decode bytes = .ok b := by
  unfold decode at h ⊢
  cases hscan : scan code with
  | mk instructions error? =>
    rw [hscan] at h
    cases error? with
    | some error => simp at h
    | none =>
      have hbody : b = ⟨instructions⟩ := by
        dsimp only at h
        split at h
        · simp at h
        · exact (Except.ok.inj h).symm
      have hagain : scan bytes = (instructions, none) := by
        unfold scan
        rw [hlength]
        refine @scanOnto_congr code bytes _ _ _ _ _ rfl hscan hlength ?_
        intro j offset i htile
        refine hdecodes j i ?_
        rw [hbody]
        unfold get? Tiling.get?
        rw [htile]
        rfl
      rw [hagain]
      exact h

end Body

end Bytecode
