import Bytecode.Proofs.Decoding

/-!
# Lengths of encoded instructions

How long an instruction is can be told from its bytes without decoding it: by its opcode, behind a `wide` by the
opcode that is widened, and for a switch by the words that count its cases.

* `Instruction.wordAt`: the signed number of four bytes at an offset;
* `Instruction.tableBounds_of_switchOperands`, `Instruction.pairCount_of_switchOperands`: the words that tell how many
  cases a switch has;
* `Instruction.encodedLength?` and `Instruction.Decodes.encodedLength?_eq`: a decoded instruction has the length that
  its bytes tell;
* `Instruction.walk`: steps through code by these lengths alone.
-/

namespace Bytecode

namespace Instruction

/-! ## Words of the operands -/

/-- The signed number of the four bytes at an offset. -/
def wordAt (bytes : List UInt8) (offset : Nat) : Int32 :=
  (UInt32.ofNat (Binary.ofBigEndian ((bytes.drop offset).take 4))).toInt32

theorem wordAt_drop (bytes : List UInt8) (start offset : Nat) :
    wordAt (bytes.drop start) offset = wordAt bytes (start + offset) := by
  unfold wordAt
  rw [List.drop_drop]

/-- The words behind the opcode and some padding. -/
theorem wordAt_behind (opcode : UInt8) (operands : List UInt8) (padding offset : Nat) :
    wordAt (operands.drop padding) offset = wordAt (opcode :: operands) (1 + padding + offset) := by
  rw [wordAt_drop, Nat.add_assoc, Nat.add_comm 1]
  rfl

/-- A reader that maps a number of `count` bytes, in full. -/
theorem map_operand_eq_ok {α : Type} {f : Nat → α} {count : Nat} {input rest : List UInt8} {a : α} :
    (f <$> operand count : Operands α) input = .ok (a, rest) ↔
      count ≤ input.length ∧ a = f (Binary.ofBigEndian (input.take count)) ∧ rest = input.drop count := by
  rw [state_map_eq_ok]
  constructor
  · rintro ⟨n, t, hn, heq⟩
    obtain ⟨rfl, rfl⟩ := Prod.mk.inj heq
    obtain ⟨hle, rfl, rfl⟩ := operand_eq_ok.mp hn
    exact ⟨hle, rfl, rfl⟩
  · rintro ⟨hle, rfl, rfl⟩
    exact ⟨_, _, operand_eq_ok.mpr ⟨hle, rfl, rfl⟩, rfl⟩

theorem int32Operand_eq_ok {n : Int32} {input rest : List UInt8} :
    int32Operand input = .ok (n, rest) ↔ 4 ≤ input.length ∧ n = wordAt input 0 ∧ rest = input.drop 4 :=
  map_operand_eq_ok

theorem byteOperand_eq_ok {b : UInt8} {input rest : List UInt8} (h : byteOperand input = .ok (b, rest)) :
    input = b :: rest := by
  obtain ⟨hle, rfl, rfl⟩ := map_operand_eq_ok.mp h
  cases input with
  | nil => simp at hle
  | cons first others => simp [Binary.ofBigEndian]

variable {length position size default : Nat} {cases : Cases} {input rest : List UInt8}

/-- A table has an entry for each key from its low to its high word. -/
theorem tableBounds_of_switchOperands
    (h : switchOperands length position Opcode.tableswitch input = .ok ((size, default, cases), rest)) :
    ∃ targets, cases = .table (wordAt input 4) targets ∧ wordAt input 4 ≤ wordAt input 8 ∧
      targets.length = tableCount (wordAt input 4) (wordAt input 8) ∧ size = 12 + 4 * targets.length := by
  obtain ⟨_, _, low, _, high, _, targets, hdistance, -, hlow, hhigh, horder, -, htargets, rfl, rfl⟩ :=
    switchOperands_table_eq_ok.mp h
  obtain ⟨-, -, rfl⟩ := map_operand_eq_ok.mp hdistance
  obtain ⟨-, hlowWord, rfl⟩ := int32Operand_eq_ok.mp hlow
  obtain ⟨-, hhighWord, rfl⟩ := int32Operand_eq_ok.mp hhigh
  obtain rfl : low = wordAt input 4 := hlowWord.trans (wordAt_drop input 4 0)
  obtain rfl : high = wordAt input 8 := by rw [hhighWord, wordAt_drop, wordAt_drop]
  have hcount := length_of_tableTargets htargets
  rw [List.length_nil, Nat.zero_add] at hcount
  exact ⟨targets, rfl, Int32.not_lt.mp horder, hcount, by rw [hcount]⟩

/-- A lookup has as many pairs as its second word tells. -/
theorem pairCount_of_switchOperands
    (h : switchOperands length position Opcode.lookupswitch input = .ok ((size, default, cases), rest)) :
    ∃ pairs, cases = .lookup pairs ∧ pairs.length = (wordAt input 4).toInt.toNat ∧ size = 8 + 8 * pairs.length := by
  obtain ⟨_, _, count, _, pairs, hdistance, -, hcount, -, -, hpairs, rfl, rfl⟩ := switchOperands_lookup_eq_ok.mp h
  obtain ⟨-, -, rfl⟩ := map_operand_eq_ok.mp hdistance
  obtain ⟨-, rfl, rfl⟩ := int32Operand_eq_ok.mp hcount
  have hlength := length_of_lookupPairs hpairs
  rw [List.length_nil, Nat.zero_add, wordAt_drop] at hlength
  exact ⟨pairs, rfl, hlength, by rw [hlength, wordAt_drop]⟩

/-- Behind a `wide` stands the opcode that is widened, and only `iinc` has a further operand. -/
theorem size_of_widened {opcode : UInt8} {flow : Flow} (h : widened input = .ok ((size, opcode, flow), rest)) :
    input.head? = some opcode ∧ size = if opcode = Opcode.iinc then 6 else 4 := by
  unfold widened at h
  obtain ⟨found, afterOpcode, hfound, h⟩ := state_bind_eq_ok.mp h
  obtain ⟨index, afterIndex, -, h⟩ := state_bind_eq_ok.mp h
  rw [byteOperand_eq_ok hfound, List.head?_cons]
  split at h
  · rename_i hiinc
    obtain ⟨amount, afterAmount, -, h⟩ := state_bind_eq_ok.mp h
    simp only [state_pure_eq_ok, Prod.mk.injEq] at h
    obtain ⟨⟨rfl, rfl, -⟩, -⟩ := h
    exact ⟨rfl, (if_pos hiinc).symm⟩
  · rename_i hiinc
    -- the other opcodes that can be widened have the index alone
    have hfour : size = 4 ∧ found = opcode := by
      split at h
      · simp only [state_pure_eq_ok, Prod.mk.injEq] at h
        exact ⟨h.1.1.symm, h.1.2.1⟩
      · split at h
        · simp only [state_pure_eq_ok, Prod.mk.injEq] at h
          exact ⟨h.1.1.symm, h.1.2.1⟩
        · split at h
          · simp only [state_pure_eq_ok, Prod.mk.injEq] at h
            exact ⟨h.1.1.symm, h.1.2.1⟩
          · simp at h
    obtain ⟨rfl, rfl⟩ := hfour
    exact ⟨rfl, (if_neg hiinc).symm⟩

/-! ## Lengths -/

/-- The length of the instruction that starts with some bytes, at a position of the code. -/
def encodedLength? (position : Nat) (bytes : List UInt8) : Option Nat :=
  let words := 1 + Opcode.switchPadding position
  match bytes with
  | [] => none
  | opcode :: operands =>
    if opcode = Opcode.wide then operands.head?.map fun widened => if widened = Opcode.iinc then 6 else 4
    else if opcode = Opcode.tableswitch then
      some (words + 12 + 4 * tableCount (wordAt bytes (words + 4)) (wordAt bytes (words + 8)))
    else if opcode = Opcode.lookupswitch then some (words + 8 + 8 * (wordAt bytes (words + 4)).toInt.toNat)
    else Opcode.fixedLength? opcode

/-- The opcode of the instruction that starts with some bytes; of a widened instruction, the opcode that is
widened. -/
def encodedOpcode? (bytes : List UInt8) : Option UInt8 :=
  if bytes.head? = some Opcode.wide then bytes.tail.head? else bytes.head?

namespace Decodes

variable {bytes : List UInt8} {i : Instruction}

/-- A decoded instruction is as long as its bytes tell. -/
theorem encodedLength?_eq (h : Decodes length position bytes i) : encodedLength? position bytes = some i.size := by
  unfold encodedLength?
  cases h with
  | @widened operands rest size opcode flow h =>
    obtain ⟨hhead, rfl⟩ := size_of_widened h
    dsimp only
    rw [if_pos rfl, hhead]
    rfl
  | @switch operands rest opcode size default cases hopcode hpadding h =>
    dsimp only
    rcases hopcode with rfl | rfl
    · obtain ⟨targets, -, -, hcount, rfl⟩ := tableBounds_of_switchOperands h
      rw [if_neg (by decide), if_pos rfl, ← wordAt_behind, ← wordAt_behind, ← hcount, Nat.add_assoc]
    · obtain ⟨pairs, -, hcount, rfl⟩ := pairCount_of_switchOperands h
      rw [if_neg (by decide), if_neg (by decide), if_pos rfl, ← wordAt_behind, ← hcount, Nat.add_assoc]
  | fixed hopcode hsize hfits h =>
    dsimp only
    rw [if_neg hopcode.1, if_neg hopcode.2.1, if_neg hopcode.2.2, hsize]

/-- The bytes of a decoded instruction start with its opcode, behind a `wide` if it is widened. -/
theorem starts (h : Decodes length position bytes i) :
    (if i.wide then [Opcode.wide, i.opcode] else [i.opcode]) <+: bytes := by
  cases h with
  | @widened operands rest size opcode flow h =>
    obtain ⟨others, rfl⟩ := List.head?_eq_some_iff.mp (size_of_widened h).1
    exact ⟨others, rfl⟩
  | switch hopcode hpadding h => exact ⟨_, rfl⟩
  | fixed hopcode hsize hfits h => exact ⟨_, rfl⟩

theorem encodedOpcode?_eq (h : Decodes length position bytes i) : encodedOpcode? bytes = some i.opcode := by
  unfold encodedOpcode?
  cases h with
  | widened h => exact (size_of_widened h).1
  | @switch operands rest opcode size default cases hopcode hpadding h =>
    have hwide : opcode ≠ Opcode.wide := by
      rcases hopcode with rfl | rfl <;> decide
    rw [List.head?_cons, if_neg (by simpa using hwide)]
  | fixed hopcode hsize hfits h => rw [List.head?_cons, if_neg (by simpa using hopcode.1)]

end Decodes

/-! ## Stepping through code -/

/-- Step through code from a position on, by the lengths of its instructions: where each starts, and its opcode.
There is no answer if the bytes tell no length, or one that goes beyond the end. -/
def walk (position : Nat) (bytes : List UInt8) : Option (List (Nat × UInt8)) :=
  if bytes = [] then some []
  else do
    let size ← encodedLength? position bytes
    let opcode ← encodedOpcode? bytes
    if 0 < size ∧ size ≤ bytes.length then
      let behind ← walk (position + size) (bytes.drop size)
      return (position, opcode) :: behind
    else none
termination_by bytes.length
decreasing_by
  rw [List.length_drop]
  omega

theorem walk_nil (position : Nat) : walk position [] = some [] := by
  rw [walk, if_pos rfl]

/-- A decoded instruction is one step. -/
theorem Decodes.walk_eq {bytes : List UInt8} {i : Instruction} (h : Decodes length position bytes i)
    (hsize : i.size ≤ bytes.length) :
    walk position bytes = (walk (position + i.size) (bytes.drop i.size)).map ((position, i.opcode) :: ·) := by
  have hsome : bytes ≠ [] := by
    rintro rfl
    cases h
  rw [walk, if_neg hsome, h.encodedLength?_eq, h.encodedOpcode?_eq]
  simp only [Option.bind_eq_bind, Option.bind_some, if_pos (show 0 < i.size ∧ i.size ≤ bytes.length from
    ⟨h.size_pos, hsize⟩)]
  cases walk (position + i.size) (bytes.drop i.size) <;> rfl

end Instruction

end Bytecode
