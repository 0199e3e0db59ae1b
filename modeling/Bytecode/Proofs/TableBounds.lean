import Bytecode.Proofs.Encoding
import Bytecode.Proofs.ExactTiling

/-!
# The greatest key of a table

A decoded `tableswitch` keeps the least key of its table and one target for each key.  The greatest key is computed
from them when the switch is written again, as a sum and a difference of words.

* `Instruction.exactHigh?`: the same computation where every result has to be in the range of words;
* `Instruction.exactHigh?_eq`: this computation fails for tables that reach up to the last word, and for those with
  `2 ^ 31` keys or more;
* `Instruction.table_high_kept`: the key that is written is the one that was read nevertheless.
-/

namespace Bytecode

namespace Instruction

/-! ## Computing with words -/

/-- The word that has exactly this value, if there is one. -/
def exactWord? (n : Int) : Option Int32 :=
  if -2 ^ 31 ≤ n ∧ n < 2 ^ 31 then some (Int32.ofInt n) else none

/-- The greatest key of a table, from the least one and the number of keys as a word, where neither the sum nor the
difference may leave the range of words. -/
def exactHigh? (low : Int32) (count : Nat) : Option Int32 := do
  let sum ← exactWord? (low.toInt + (Int32.ofNat count).toInt)
  exactWord? (sum.toInt - 1)

theorem exactWord?_eq_some {n : Int} {w : Int32} : exactWord? n = some w ↔ w.toInt = n := by
  unfold exactWord?
  constructor
  · intro h
    split at h
    · rename_i hrange
      obtain rfl := Option.some.inj h
      exact Int32.toInt_ofInt_of_le hrange.1 hrange.2
    · simp at h
  · rintro rfl
    rw [if_pos ⟨Int32.le_toInt w, Int32.toInt_lt w⟩, Int32.ofInt_toInt]

theorem exactWord?_eq_none {n : Int} (h : n < -2 ^ 31 ∨ 2 ^ 31 ≤ n) : exactWord? n = none := by
  unfold exactWord?
  exact if_neg (by omega)

/-- Counts from `2 ^ 31` on are negative words, up to `2 ^ 32`, which is the word zero. -/
theorem toInt_ofNat_count {count : Nat} (h : count ≤ 2 ^ 32) :
    (Int32.ofNat count).toInt = if count < 2 ^ 31 then (count : Int) else count - 2 ^ 32 := by
  rw [Int32.toInt_ofNat', Int32.size, Int.bmod_def]
  by_cases hlast : count = 2 ^ 32
  · subst hlast
    rfl
  have hmod : (count : Int) % (4294967296 : Nat) = count := by omega
  rw [hmod]
  split
  · rw [if_pos (by omega)]
  · rw [if_neg (by omega)]
    rfl

/-- The sum of the least key and the number of keys is the word behind the greatest key, and behind the last word there
is none.  A number of keys that is too large for a word makes the sum or the difference too small. -/
theorem exactHigh?_eq {low high : Int32} {count : Nat} (hle : low ≤ high)
    (hcount : (count : Int) = high.toInt - low.toInt + 1) :
    exactHigh? low count = if high.toInt < 2 ^ 31 - 1 ∧ count < 2 ^ 31 then some high else none := by
  have hlow := Int32.le_toInt low
  have hhigh := Int32.toInt_lt high
  have hword := toInt_ofNat_count (show count ≤ 2 ^ 32 by omega)
  unfold exactHigh?
  split
  · rename_i hsmall
    rw [if_pos hsmall.2] at hword
    have hbehind : (Int32.ofInt (high.toInt + 1)).toInt = high.toInt + 1 :=
      Int32.toInt_ofInt_of_le (by have := Int32.le_toInt high; omega) (by omega)
    have hsum : exactWord? (low.toInt + (Int32.ofNat count).toInt) = some (Int32.ofInt (high.toInt + 1)) :=
      exactWord?_eq_some.mpr (by omega)
    have hdifference : exactWord? ((Int32.ofInt (high.toInt + 1)).toInt - 1) = some high :=
      exactWord?_eq_some.mpr (by omega)
    rw [hsum]
    exact hdifference
  · rename_i hlarge
    cases hsum : exactWord? (low.toInt + (Int32.ofNat count).toInt) with
    | none => rfl
    | some sum =>
      have hvalue := exactWord?_eq_some.mp hsum
      have hrange := Int32.le_toInt sum
      have hrange' := Int32.toInt_lt sum
      have hle' := Int32.le_iff_toInt_le.mp hle
      refine exactWord?_eq_none (.inl ?_)
      split at hword <;> omega

/-! ## Written tables -/

theorem wordAt_write (w : Int32) (rest : List UInt8) : wordAt (write w ++ rest) 0 = w :=
  (int32Operand_eq_ok.mp (int32Operand_write w rest)).2.1.symm

theorem wordAt_append {front : List UInt8} {length : Nat} (h : front.length = length) (rest : List UInt8)
    (offset : Nat) : wordAt (front ++ rest) (length + offset) = wordAt rest offset := by
  rw [← wordAt_drop, List.drop_left' h]

/-- A table that is moved has its bounds behind the distance of the default. -/
theorem bounds_of_relocated {x : Instruction} {position default : Nat} {low : Int32} {targets : List Nat}
    {place : Nat → Except VerifyError Nat} {piece : List UInt8} (hflow : x.flow = .select default (.table low targets))
    (h : x.relocated position place = .ok piece) :
    wordAt piece (1 + Opcode.switchPadding position + 4) = low ∧
      wordAt piece (1 + Opcode.switchPadding position + 8) = low + Int32.ofNat targets.length - 1 := by
  unfold relocated at h
  rw [hflow] at h
  obtain ⟨d, -, h⟩ := bind_eq_ok.mp h
  obtain ⟨cases, hcases, h⟩ := bind_eq_ok.mp h
  obtain rfl := pure_eq_ok.mp h
  obtain ⟨distances, -, hcases⟩ := bind_eq_ok.mp hcases
  obtain rfl := pure_eq_ok.mp hcases
  have hfront : (x.opcode :: (List.replicate (Opcode.switchPadding position) 0 ++ write d)).length =
      1 + Opcode.switchPadding position + 4 := by
    rw [List.length_cons, List.length_append, List.length_replicate, length_write_int32]
    omega
  rw [← List.cons_append, List.append_assoc (write low)]
  constructor
  · exact (wordAt_append hfront _ 0).trans (wordAt_write low _)
  · show wordAt _ (1 + Opcode.switchPadding position + 4 + (4 + 0)) = _
    rw [wordAt_append hfront, wordAt_append (length_write_int32 low), wordAt_write]

/-- The greatest key of a table that is moved is the one that was read.  The sum on the way to it leaves the range of
words exactly if this key is the last word, or if there are `2 ^ 31` keys or more. -/
theorem table_high_kept {code : List UInt8} {old default : Nat} {x : Instruction} {low : Int32} {targets : List Nat}
    (hx : decode code old = .ok x) (hflow : x.flow = .select default (.table low targets)) :
    ∃ high : Int32, high = wordAt code (old + (1 + Opcode.switchPadding old + 8)) ∧ low ≤ high ∧
      (targets.length : Int) = high.toInt - low.toInt + 1 ∧ low + Int32.ofNat targets.length - 1 = high ∧
      (∀ (position : Nat) (place : Nat → Except VerifyError Nat) (piece : List UInt8),
        x.relocated position place = .ok piece →
        wordAt piece (1 + Opcode.switchPadding position + 4) = low ∧
          wordAt piece (1 + Opcode.switchPadding position + 8) = high) ∧
      exactHigh? low targets.length =
        if high.toInt < 2 ^ 31 - 1 ∧ targets.length < 2 ^ 31 then some high else none := by
  have hdecodes := decode_eq_ok.mp hx
  obtain ⟨-, hcount, hsome⟩ := hdecodes.table_bounds hflow
  rw [wordAt_drop] at hcount
  have hle : low ≤ wordAt code (old + (1 + Opcode.switchPadding old + 8)) :=
    Int32.le_iff_toInt_le.mpr (by omega)
  have hhigh : low + Int32.ofNat targets.length - 1 = wordAt code (old + (1 + Opcode.switchPadding old + 8)) := by
    rw [← high_of_tableCount (Int32.not_lt.mpr hle), tableCount, ← hcount, Int.toNat_natCast]
  refine ⟨_, rfl, hle, hcount, hhigh, fun position place piece hpiece => ?_, exactHigh?_eq hle hcount⟩
  rw [← hhigh]
  exact bounds_of_relocated hflow hpiece

/-- A table with one key, the last word. -/
def lastKey : Instruction :=
  ⟨0, 20, Opcode.tableswitch, false, .select 20 (.table Int32.maxValue [20])⟩

/-- The sum on the way to the greatest key is no word, but the key is written as it was read. -/
theorem lastKey_high_kept :
    exactHigh? Int32.maxValue 1 = none ∧
      ∃ piece, lastKey.relocated 3 (fun _ => .ok 20 : Nat → Except VerifyError Nat) = .ok piece ∧
        wordAt piece 5 = Int32.maxValue ∧ wordAt piece 9 = Int32.maxValue := by
  have hdecode : decode [0xaa, 0, 0, 0, 0, 0, 0, 20, 0x7f, 0xff, 0xff, 0xff, 0x7f, 0xff, 0xff, 0xff, 0, 0, 0, 20,
      0xb1] 0 = .ok lastKey := by rfl
  obtain ⟨high, hread, -, -, -, hwritten, hexact⟩ := table_high_kept hdecode rfl
  obtain rfl : high = Int32.maxValue := hread.trans (by decide)
  have hmoved : ∃ piece, lastKey.relocated 3 (fun _ => .ok 20 : Nat → Except VerifyError Nat) = .ok piece := ⟨_, rfl⟩
  obtain ⟨piece, hpiece⟩ := hmoved
  exact ⟨hexact, piece, hpiece, hwritten 3 _ piece hpiece⟩

end Instruction

end Bytecode
