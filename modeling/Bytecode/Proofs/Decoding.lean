import Bytecode.Body
import Bytecode.Instruction.Relocation
import Bytecode.Proofs.Outcomes
import Mathlib.Algebra.Group.Int.Defs
import Mathlib.Algebra.Group.Nat.Defs

/-!
# Shapes of decoded instructions

`Instruction.Decodes` lists the three ways in which an instruction is decoded: behind a `wide`, as a switch, or
with a length that its opcode fixes.  From it follow the facts that later proofs need of an instruction:

* it lies where it was decoded, takes at least one byte and stays inside the code;
* opcode, size and flow fit together, for branches, switches, calls of subroutines and returns from them.
-/

namespace Bytecode

namespace Instruction

variable {input rest : List UInt8} {length position count size : Nat} {opcode : UInt8} {flow : Flow} {cases : Cases}

/-! ## Operands -/

theorem operand_eq_ok {n : Nat} : operand count input = .ok (n, rest) ↔
      count ≤ input.length ∧ n = Binary.ofBigEndian (input.take count) ∧ rest = input.drop count := by
  unfold operand
  simp only [List.length_take]
  split
  · simp only [Except.ok.injEq, Prod.mk.injEq]
    constructor
    · rintro ⟨hn, hrest⟩
      exact ⟨by omega, hn.symm, hrest.symm⟩
    · rintro ⟨_, hn, hrest⟩
      exact ⟨hn.symm, hrest.symm⟩
  · simp only [reduceCtorEq, false_iff]
    omega

/-- A reader that maps a number of `count` bytes takes them off the input. -/
theorem length_of_operand {α : Type} {f : Nat → α} {a : α}
    (h : (f <$> operand count : Operands α) input = .ok (a, rest)) :
    input.length = count + rest.length := by
  rw [state_map_eq_ok] at h
  obtain ⟨n, t, hn, hr⟩ := h
  rw [operand_eq_ok] at hn
  obtain ⟨hle, -, ht⟩ := hn
  obtain ⟨-, rfl⟩ := Prod.mk.inj hr
  rw [ht, List.length_drop]
  omega

/-- What follows a `wide` has the size that it tells. -/
theorem length_of_widened (h : widened input = .ok ((size, opcode, flow), rest)) :
    1 ≤ size ∧ input.length + 1 = size + rest.length := by
  unfold widened at h
  rw [state_bind_eq_ok] at h
  obtain ⟨found, afterOpcode, hfound, h⟩ := h
  rw [state_bind_eq_ok] at h
  obtain ⟨index, afterIndex, hindex, h⟩ := h
  have hfirst := length_of_operand hfound
  have hsecond := length_of_operand hindex
  split at h
  · rw [state_bind_eq_ok] at h
    obtain ⟨amount, afterAmount, hamount, h⟩ := h
    obtain ⟨hle, -, hdrop⟩ := operand_eq_ok.mp hamount
    have hthird := congrArg List.length hdrop
    rw [List.length_drop] at hthird
    simp only [state_pure_eq_ok, Prod.mk.injEq] at h
    obtain ⟨⟨rfl, -, -⟩, rfl⟩ := h
    omega
  · split at h
    · simp only [state_pure_eq_ok, Prod.mk.injEq] at h
      obtain ⟨⟨rfl, -, -⟩, rfl⟩ := h
      omega
    · split at h
      · simp only [state_pure_eq_ok, Prod.mk.injEq] at h
        obtain ⟨⟨rfl, -, -⟩, rfl⟩ := h
        omega
      · split at h
        · simp only [state_pure_eq_ok, Prod.mk.injEq] at h
          obtain ⟨⟨rfl, -, -⟩, rfl⟩ := h
          omega
        · simp at h

/-- What follows a `wide` runs straight on or is a `ret`. -/
theorem flow_of_widened (h : widened input = .ok ((size, opcode, flow), rest)) :
    (∃ op, flow = .plain op) ∨ ∃ index, flow = .ret index := by
  unfold widened at h
  obtain ⟨found, _, -, h⟩ := state_bind_eq_ok.mp h
  obtain ⟨index, _, -, h⟩ := state_bind_eq_ok.mp h
  split at h
  · obtain ⟨amount, _, -, h⟩ := state_bind_eq_ok.mp h
    simp only [state_pure_eq_ok, Prod.mk.injEq] at h
    exact Or.inl ⟨_, h.1.2.2.symm⟩
  · split at h
    · simp only [state_pure_eq_ok, Prod.mk.injEq] at h
      exact Or.inr ⟨_, h.1.2.2.symm⟩
    · split at h
      · simp only [state_pure_eq_ok, Prod.mk.injEq] at h
        exact Or.inl ⟨_, h.1.2.2.symm⟩
      · split at h
        · simp only [state_pure_eq_ok, Prod.mk.injEq] at h
          exact Or.inl ⟨_, h.1.2.2.symm⟩
        · simp at h

theorem needBytes_eq_ok {u : Unit} : needBytes count input = .ok (u, rest) ↔ count ≤ input.length ∧ rest = input := by
  unfold needBytes
  rw [state_bind_eq_ok]
  constructor
  · rintro ⟨bytes, t, hget, h⟩
    obtain ⟨rfl, rfl⟩ := Prod.mk.inj (Except.ok.inj hget)
    split at h
    · simp at h
    · simp only [state_pure_eq_ok, Prod.mk.injEq] at h
      exact ⟨by omega, h.2.symm⟩
  · rintro ⟨hle, rfl⟩
    refine ⟨rest, rest, rfl, ?_⟩
    rw [if_neg (by omega)]
    rfl

/-- One more position of a table. -/
theorem tableTargets_succ_eq_ok {front targets : List Nat} :
    tableTargets length position (count + 1) front input = .ok (targets, rest) ↔
      ∃ distance input' target, longDistance input = .ok (distance, input') ∧
        targetAt length position distance = .ok target ∧
        tableTargets length position count (target :: front) input' = .ok (targets, rest) := by
  rw [tableTargets, state_bind_eq_ok]
  constructor
  · rintro ⟨distance, input', hdistance, h⟩
    rw [state_bind_eq_ok] at h
    obtain ⟨target, input'', htarget, h⟩ := h
    rw [state_lift_eq_ok] at htarget
    obtain ⟨found, hfound, heq⟩ := htarget
    obtain ⟨rfl, rfl⟩ := Prod.mk.inj heq
    exact ⟨distance, _, target, hdistance, hfound, h⟩
  · rintro ⟨distance, input', target, hdistance, htarget, h⟩
    refine ⟨distance, input', hdistance, ?_⟩
    rw [state_bind_eq_ok]
    exact ⟨target, input', state_lift_eq_ok.mpr ⟨target, htarget, rfl⟩, h⟩

/-- One more pair of a lookup, with a key above the one in front. -/
theorem lookupPairs_succ_eq_ok {front pairs : List (Int32 × Nat)} :
    lookupPairs length position (count + 1) front input = .ok (pairs, rest) ↔
      ∃ key input' distance input'' target, int32Operand input = .ok (key, input') ∧
        longDistance input' = .ok (distance, input'') ∧
        (∀ pair ∈ front.head?, ¬ key ≤ pair.1) ∧
        targetAt length position distance = .ok target ∧
        lookupPairs length position count ((key, target) :: front) input'' = .ok (pairs, rest) := by
  have hlast : ∀ (key : Int32) (distance : Int) (input : List UInt8),
      (liftM (targetAt length position distance) >>= fun target =>
        lookupPairs length position count ((key, target) :: front) : Operands _) input
          = .ok (pairs, rest) ↔
      ∃ target, targetAt length position distance = .ok target ∧
        lookupPairs length position count ((key, target) :: front) input = .ok (pairs, rest) := by
    intro key distance input
    rw [state_bind_eq_ok]
    constructor
    · rintro ⟨target, input', htarget, h⟩
      obtain ⟨found, hfound, heq⟩ := state_lift_eq_ok.mp htarget
      obtain ⟨rfl, rfl⟩ := Prod.mk.inj heq
      exact ⟨target, hfound, h⟩
    · rintro ⟨target, htarget, h⟩
      exact ⟨target, input, state_lift_eq_ok.mpr ⟨target, htarget, rfl⟩, h⟩
  rw [lookupPairs, state_bind_eq_ok]
  constructor
  · rintro ⟨key, input', hkey, h⟩
    rw [state_bind_eq_ok] at h
    obtain ⟨distance, input'', hdistance, h⟩ := h
    cases hhead : front.head? with
    | none =>
      rw [hhead] at h
      obtain ⟨target, htarget, h⟩ := (hlast key distance input'').mp h
      exact ⟨key, input', distance, input'', target, hkey, hdistance, by simp, htarget, h⟩
    | some previous =>
      rw [hhead] at h
      by_cases hless : key ≤ previous.1
      · simp only [if_pos hless] at h
        rw [state_bind_eq_ok] at h
        obtain ⟨_, _, hthrow, -⟩ := h
        simp at hthrow
      · simp only [if_neg hless] at h
        obtain ⟨target, htarget, h⟩ := (hlast key distance input'').mp h
        exact ⟨key, input', distance, input'', target, hkey, hdistance, by simpa using hless, htarget, h⟩
  · rintro ⟨key, input', distance, input'', target, hkey, hdistance, hless, htarget, h⟩
    refine ⟨key, input', hkey, ?_⟩
    rw [state_bind_eq_ok]
    refine ⟨distance, input'', hdistance, ?_⟩
    cases hhead : front.head? with
    | none => exact (hlast key distance input'').mpr ⟨target, htarget, h⟩
    | some previous =>
      simp only [if_neg (hless previous hhead)]
      exact (hlast key distance input'').mpr ⟨target, htarget, h⟩

/-- The positions of a table are as many as counted. -/
theorem length_of_tableTargets {front targets : List Nat}
    (h : tableTargets length position count front input = .ok (targets, rest)) :
    targets.length = front.length + count := by
  induction count generalizing front input with
  | zero =>
    simp only [tableTargets, state_pure_eq_ok, Prod.mk.injEq] at h
    rw [← h.1, List.length_reverse]
    rfl
  | succ count ih =>
    obtain ⟨_, _, _, -, -, h⟩ := tableTargets_succ_eq_ok.mp h
    have hlength := ih h
    rw [List.length_cons] at hlength
    omega

/-- The pairs of a lookup are as many as counted. -/
theorem length_of_lookupPairs {front pairs : List (Int32 × Nat)}
    (h : lookupPairs length position count front input = .ok (pairs, rest)) :
    pairs.length = front.length + count := by
  induction count generalizing front input with
  | zero =>
    simp only [lookupPairs, state_pure_eq_ok, Prod.mk.injEq] at h
    rw [← h.1, List.length_reverse]
    rfl
  | succ count ih =>
    obtain ⟨_, _, _, _, _, -, -, -, -, h⟩ := lookupPairs_succ_eq_ok.mp h
    have hlength := ih h
    rw [List.length_cons] at hlength
    omega

/-- Number of entries in a table from one key to another. -/
def tableCount (low high : Int32) : Nat := (high.toInt - low.toInt + 1).toNat

/-- The operands of a `tableswitch`. -/
theorem switchOperands_table_eq_ok {default : Nat} :
    switchOperands length position Opcode.tableswitch input = .ok ((size, default, cases), rest) ↔
      ∃ distance input₁ low input₂ high input₃ targets,
        longDistance input = .ok (distance, input₁) ∧
        targetAt length position distance = .ok default ∧
        int32Operand input₁ = .ok (low, input₂) ∧
        int32Operand input₂ = .ok (high, input₃) ∧
        ¬ high < low ∧ tableCount low high * 4 ≤ input₃.length ∧
        tableTargets length position (tableCount low high) [] input₃ = .ok (targets, rest) ∧
        size = 12 + 4 * tableCount low high ∧ cases = .table low targets := by
  unfold switchOperands tableCount
  rw [state_bind_eq_ok]
  constructor
  · rintro ⟨distance, input₁, hdistance, h⟩
    rw [state_bind_eq_ok] at h
    obtain ⟨target, input₁', htarget, h⟩ := h
    obtain ⟨found, hfound, heq⟩ := state_lift_eq_ok.mp htarget
    obtain ⟨rfl, rfl⟩ := Prod.mk.inj heq
    rw [if_pos rfl, state_bind_eq_ok] at h
    obtain ⟨low, input₂, hlow, h⟩ := h
    rw [state_bind_eq_ok] at h
    obtain ⟨high, input₃, hhigh, h⟩ := h
    by_cases horder : high < low
    · rw [if_pos horder, state_bind_eq_ok] at h
      obtain ⟨_, _, hthrow, -⟩ := h
      simp at hthrow
    · rw [if_neg horder] at h
      simp only [state_bind_eq_ok] at h
      obtain ⟨_, input₄, hneed, targets, rest', htargets, h⟩ := h
      obtain ⟨hbytes, rfl⟩ := needBytes_eq_ok.mp hneed
      simp only [state_pure_eq_ok, Prod.mk.injEq] at h
      obtain ⟨⟨rfl, rfl, rfl⟩, rfl⟩ := h
      exact ⟨distance, _, low, input₂, high, _, targets, hdistance, hfound, hlow, hhigh, horder, hbytes,
        htargets, rfl, rfl⟩
  · rintro ⟨distance, input₁, low, input₂, high, input₃, targets, hdistance, htarget, hlow, hhigh, horder,
      hbytes, htargets, rfl, rfl⟩
    refine ⟨distance, input₁, hdistance, ?_⟩
    rw [state_bind_eq_ok]
    refine ⟨default, input₁, state_lift_eq_ok.mpr ⟨default, htarget, rfl⟩, ?_⟩
    rw [if_pos rfl, state_bind_eq_ok]
    refine ⟨low, input₂, hlow, ?_⟩
    rw [state_bind_eq_ok]
    refine ⟨high, input₃, hhigh, ?_⟩
    rw [if_neg horder]
    simp only [state_bind_eq_ok]
    exact ⟨(), input₃, needBytes_eq_ok.mpr ⟨hbytes, rfl⟩, targets, rest, htargets, rfl⟩

/-- The operands of a `lookupswitch`. -/
theorem switchOperands_lookup_eq_ok {default : Nat} :
    switchOperands length position Opcode.lookupswitch input = .ok ((size, default, cases), rest) ↔
      ∃ distance input₁ count input₂ pairs,
        longDistance input = .ok (distance, input₁) ∧
        targetAt length position distance = .ok default ∧
        int32Operand input₁ = .ok (count, input₂) ∧
        ¬ count < 0 ∧ count.toInt.toNat * 8 ≤ input₂.length ∧
        lookupPairs length position count.toInt.toNat [] input₂ = .ok (pairs, rest) ∧
        size = 8 + 8 * count.toInt.toNat ∧ cases = .lookup pairs := by
  have hopcode : ¬ Opcode.lookupswitch = Opcode.tableswitch := by decide
  unfold switchOperands
  rw [state_bind_eq_ok]
  constructor
  · rintro ⟨distance, input₁, hdistance, h⟩
    rw [state_bind_eq_ok] at h
    obtain ⟨target, input₁', htarget, h⟩ := h
    obtain ⟨found, hfound, heq⟩ := state_lift_eq_ok.mp htarget
    obtain ⟨rfl, rfl⟩ := Prod.mk.inj heq
    rw [if_neg hopcode, state_bind_eq_ok] at h
    obtain ⟨count, input₂, hcount, h⟩ := h
    by_cases hsign : count < 0
    · rw [if_pos hsign, state_bind_eq_ok] at h
      obtain ⟨_, _, hthrow, -⟩ := h
      simp at hthrow
    · rw [if_neg hsign] at h
      simp only [state_bind_eq_ok] at h
      obtain ⟨_, input₃, hneed, pairs, rest', hpairs, h⟩ := h
      obtain ⟨hbytes, rfl⟩ := needBytes_eq_ok.mp hneed
      simp only [state_pure_eq_ok, Prod.mk.injEq] at h
      obtain ⟨⟨rfl, rfl, rfl⟩, rfl⟩ := h
      exact ⟨distance, _, count, _, pairs, hdistance, hfound, hcount, hsign, hbytes, hpairs, rfl, rfl⟩
  · rintro ⟨distance, input₁, count, input₂, pairs, hdistance, htarget, hcount, hsign, hbytes, hpairs,
      rfl, rfl⟩
    refine ⟨distance, input₁, hdistance, ?_⟩
    rw [state_bind_eq_ok]
    refine ⟨default, input₁, state_lift_eq_ok.mpr ⟨default, htarget, rfl⟩, ?_⟩
    rw [if_neg hopcode, state_bind_eq_ok]
    refine ⟨count, input₂, hcount, ?_⟩
    rw [if_neg hsign]
    simp only [state_bind_eq_ok]
    exact ⟨(), input₂, needBytes_eq_ok.mpr ⟨hbytes, rfl⟩, pairs, rest, hpairs, rfl⟩

/-- The operands of a switch are as long as they tell. -/
theorem length_of_switchOperands {default : Nat} (hopcode : opcode = Opcode.tableswitch ∨ opcode = Opcode.lookupswitch)
    (h : switchOperands length position opcode input = .ok ((size, default, cases), rest)) :
    size ≤ input.length := by
  rcases hopcode with rfl | rfl
  · obtain ⟨_, _, _, _, _, _, _, hdistance, -, hlow, hhigh, -, hbytes, -, rfl, -⟩ :=
      switchOperands_table_eq_ok.mp h
    have hfirst := length_of_operand hdistance
    have hsecond := length_of_operand hlow
    have hthird := length_of_operand hhigh
    omega
  · obtain ⟨_, _, _, _, _, hdistance, -, hcount, -, hbytes, -, rfl, -⟩ :=
      switchOperands_lookup_eq_ok.mp h
    have hfirst := length_of_operand hdistance
    have hsecond := length_of_operand hcount
    omega

/-! ## Flows of a fixed length -/

/-- Opcodes of branches whose distance has two bytes. -/
def IsShortBranch (opcode : UInt8) : Prop :=
  0x99 ≤ opcode.toNat ∧ opcode.toNat ≤ 0xA7 ∨ opcode.toNat = 0xC6 ∨ opcode.toNat = 0xC7

/-- The flows of instructions whose opcode fixes their length, with the operands read. -/
inductive FlowDecodes (length position : Nat) :
    UInt8 → List UInt8 → Flow → List UInt8 → Prop
  | shortBranch {opcode : UInt8} {operands rest : List UInt8} {distance : Int} {target : Nat}
      (hopcode : IsShortBranch opcode) (hdistance : shortDistance operands = .ok (distance, rest))
      (htarget : targetAt length position distance = .ok target) :
      FlowDecodes length position opcode operands (.branch (branchKind opcode.toNat) target) rest
  | shortCall {operands rest : List UInt8} {distance : Int} {target : Nat}
      (hdistance : shortDistance operands = .ok (distance, rest))
      (htarget : targetAt length position distance = .ok target) :
      FlowDecodes length position Opcode.jsr operands (.jsr target) rest
  | longBranch {operands rest : List UInt8} {distance : Int} {target : Nat}
      (hdistance : longDistance operands = .ok (distance, rest))
      (htarget : targetAt length position distance = .ok target) :
      FlowDecodes length position Opcode.gotoW operands (.branch .goto target) rest
  | longCall {operands rest : List UInt8} {distance : Int} {target : Nat}
      (hdistance : longDistance operands = .ok (distance, rest))
      (htarget : targetAt length position distance = .ok target) :
      FlowDecodes length position Opcode.jsrW operands (.jsr target) rest
  | ret {operands rest : List UInt8} {index : UInt16} (hindex : shortIndex operands = .ok (index, rest)) :
      FlowDecodes length position Opcode.ret operands (.ret index) rest
  | plain {opcode : UInt8} {operands rest : List UInt8} {op : Op}
      (hbranch : ¬ IsShortBranch opcode)
      (hopcode : opcode ≠ Opcode.jsr ∧ opcode ≠ Opcode.gotoW ∧ opcode ≠ Opcode.jsrW ∧ opcode ≠ Opcode.ret)
      (hop : plain opcode operands = .ok (op, rest)) :
      FlowDecodes length position opcode operands (.plain op) rest

/-- The distances of two bytes are those of branches and of `jsr`. -/
theorem isShortBranch_or_jsr : (0x99 ≤ opcode.toNat ∧ opcode.toNat ≤ 0xA8 ∨ opcode.toNat = 0xC6 ∨ opcode.toNat = 0xC7) ↔
      IsShortBranch opcode ∨ opcode = Opcode.jsr := by
  have hjsr : opcode = Opcode.jsr ↔ opcode.toNat = 0xA8 := UInt8.toNat_inj.symm
  unfold IsShortBranch
  rw [hjsr]
  omega

/-- A reader of a distance, followed by the check of the position it leads to. -/
theorem target_bind_eq_ok {reader : Operands Int} {make : Nat → Operands Flow} {operands : List UInt8} :
    (reader >>= fun distance => liftM (targetAt length position distance) >>= make) operands
        = .ok (flow, rest) ↔
      ∃ distance input target, reader operands = .ok (distance, input) ∧
        targetAt length position distance = .ok target ∧ make target input = .ok (flow, rest) := by
  rw [state_bind_eq_ok]
  constructor
  · rintro ⟨distance, input, hdistance, h⟩
    obtain ⟨target, input', htarget, hmake⟩ := state_bind_eq_ok.mp h
    obtain ⟨found, hfound, heq⟩ := state_lift_eq_ok.mp htarget
    obtain ⟨rfl, rfl⟩ := Prod.mk.inj heq
    exact ⟨distance, _, target, hdistance, hfound, hmake⟩
  · rintro ⟨distance, input, target, hdistance, htarget, h⟩
    refine ⟨distance, input, hdistance, state_bind_eq_ok.mpr ?_⟩
    exact ⟨target, input, state_lift_eq_ok.mpr ⟨target, htarget, rfl⟩, h⟩

theorem fixedFlow_eq_ok {operands : List UInt8} : fixedFlow length position opcode operands = .ok (flow, rest) ↔
      FlowDecodes length position opcode operands flow rest := by
  unfold fixedFlow
  by_cases hshort : IsShortBranch opcode ∨ opcode = Opcode.jsr
  · rw [if_pos (isShortBranch_or_jsr.mpr hshort), target_bind_eq_ok]
    constructor
    · rintro ⟨distance, input, target, hdistance, htarget, h⟩
      by_cases hjsr : opcode = Opcode.jsr
      · simp only [if_pos hjsr, state_pure_eq_ok, Prod.mk.injEq] at h
        obtain ⟨rfl, rfl⟩ := h
        rw [hjsr]
        exact .shortCall hdistance htarget
      · simp only [if_neg hjsr, state_pure_eq_ok, Prod.mk.injEq] at h
        obtain ⟨rfl, rfl⟩ := h
        exact .shortBranch (hshort.resolve_right hjsr) hdistance htarget
    · intro h
      cases h with
      | @shortBranch _ _ _ distance target hopcode hdistance htarget =>
        refine ⟨distance, rest, target, hdistance, htarget, ?_⟩
        have hjsr : opcode ≠ Opcode.jsr := by
          rintro rfl
          revert hopcode
          unfold IsShortBranch
          decide
        rw [if_neg hjsr]
        rfl
      | @shortCall _ _ distance target hdistance htarget =>
        exact ⟨distance, rest, target, hdistance, htarget, rfl⟩
      | longBranch => exact absurd hshort (by unfold IsShortBranch; decide)
      | longCall => exact absurd hshort (by unfold IsShortBranch; decide)
      | ret => exact absurd hshort (by unfold IsShortBranch; decide)
      | plain hbranch hopcode => exact absurd hshort (not_or.mpr ⟨hbranch, hopcode.1⟩)
  · rw [if_neg (mt isShortBranch_or_jsr.mp hshort)]
    by_cases hlong : opcode = Opcode.gotoW ∨ opcode = Opcode.jsrW
    · rw [if_pos hlong, target_bind_eq_ok]
      constructor
      · rintro ⟨distance, input, target, hdistance, htarget, h⟩
        by_cases hjsr : opcode = Opcode.jsrW
        · simp only [if_pos hjsr, state_pure_eq_ok, Prod.mk.injEq] at h
          obtain ⟨rfl, rfl⟩ := h
          rw [hjsr]
          exact .longCall hdistance htarget
        · simp only [if_neg hjsr, state_pure_eq_ok, Prod.mk.injEq] at h
          obtain ⟨rfl, rfl⟩ := h
          rw [hlong.resolve_right hjsr]
          exact .longBranch hdistance htarget
      · intro h
        cases h with
        | shortBranch hopcode => exact absurd (Or.inl hopcode) hshort
        | shortCall => exact absurd (Or.inr rfl) hshort
        | @longBranch _ _ distance target hdistance htarget =>
          exact ⟨distance, rest, target, hdistance, htarget, rfl⟩
        | @longCall _ _ distance target hdistance htarget =>
          exact ⟨distance, rest, target, hdistance, htarget, rfl⟩
        | ret => exact absurd hlong (by decide)
        | plain _ hopcode => exact absurd hlong (not_or.mpr ⟨hopcode.2.1, hopcode.2.2.1⟩)
    · rw [if_neg hlong]
      obtain ⟨hgoto, hcall⟩ := not_or.mp hlong
      by_cases hret : opcode = Opcode.ret
      · rw [if_pos hret, state_bind_eq_ok]
        constructor
        · rintro ⟨index, input, hindex, h⟩
          simp only [state_pure_eq_ok, Prod.mk.injEq] at h
          obtain ⟨rfl, rfl⟩ := h
          rw [hret]
          exact .ret hindex
        · intro h
          cases h with
          | shortBranch hopcode => exact absurd (Or.inl hopcode) hshort
          | shortCall => exact absurd (Or.inr rfl) hshort
          | longBranch => exact absurd rfl hgoto
          | longCall => exact absurd rfl hcall
          | ret hindex => exact ⟨_, _, hindex, rfl⟩
          | plain _ hopcode => exact absurd hret hopcode.2.2.2
      · rw [if_neg hret, state_bind_eq_ok]
        constructor
        · rintro ⟨op, input, hop, h⟩
          simp only [state_pure_eq_ok, Prod.mk.injEq] at h
          obtain ⟨rfl, rfl⟩ := h
          obtain ⟨hbranch, hjsr⟩ := not_or.mp hshort
          exact .plain hbranch ⟨hjsr, hgoto, hcall, hret⟩ hop
        · intro h
          cases h with
          | shortBranch hopcode => exact absurd (Or.inl hopcode) hshort
          | shortCall => exact absurd (Or.inr rfl) hshort
          | longBranch => exact absurd rfl hgoto
          | longCall => exact absurd rfl hcall
          | ret => exact absurd rfl hret
          | plain _ _ hop => exact ⟨_, _, hop, rfl⟩

/-! ## Instructions -/

/-- The ways in which an instruction is decoded from the code from its position on. -/
inductive Decodes (length position : Nat) : List UInt8 → Instruction → Prop
  | widened {operands rest : List UInt8} {size : Nat} {opcode : UInt8} {flow : Flow}
      (h : widened operands = .ok ((size, opcode, flow), rest)) :
      Decodes length position (Opcode.wide :: operands) ⟨position, size, opcode, true, flow⟩
  | switch {operands rest : List UInt8} {opcode : UInt8} {size default : Nat} {cases : Cases}
      (hopcode : opcode = Opcode.tableswitch ∨ opcode = Opcode.lookupswitch)
      (hpadding : Opcode.switchPadding position ≤ length - position - 1)
      (h : switchOperands length position opcode (operands.drop (Opcode.switchPadding position))
        = .ok ((size, default, cases), rest)) :
      Decodes length position (opcode :: operands)
        ⟨position, 1 + Opcode.switchPadding position + size, opcode, false, .select default cases⟩
  | fixed {operands rest : List UInt8} {opcode : UInt8} {size : Nat} {flow : Flow}
      (hopcode : opcode ≠ Opcode.wide ∧ opcode ≠ Opcode.tableswitch ∧ opcode ≠ Opcode.lookupswitch)
      (hsize : Opcode.fixedLength? opcode = some size) (hfits : position + size ≤ length)
      (h : FlowDecodes length position opcode operands flow rest) :
      Decodes length position (opcode :: operands) ⟨position, size, opcode, false, flow⟩

theorem decodeFrom_eq_ok {bytes : List UInt8} {i : Instruction} :
    decodeFrom length position bytes = .ok i ↔ Decodes length position bytes i := by
  constructor
  · intro h
    unfold decodeFrom at h
    cases bytes with
    | nil => simp at h
    | cons opcode operands =>
      simp only at h
      by_cases hwide : opcode = Opcode.wide
      · rw [if_pos hwide, bind_eq_ok] at h
        obtain ⟨⟨⟨size, found, flow⟩, rest⟩, hwidened, h⟩ := h
        rw [← pure_eq_ok.mp h, hwide]
        exact .widened hwidened
      · rw [if_neg hwide] at h
        by_cases hswitch : opcode = Opcode.tableswitch ∨ opcode = Opcode.lookupswitch
        · rw [if_pos hswitch] at h
          by_cases hpadding : length - position - 1 < Opcode.switchPadding position
          · rw [if_pos hpadding, bind_eq_ok] at h
            obtain ⟨_, hthrow, -⟩ := h
            simp [throw, throwThe, MonadExceptOf.throw] at hthrow
          · rw [if_neg hpadding] at h
            simp only [bind_eq_ok] at h
            obtain ⟨⟨⟨size, default, cases⟩, rest⟩, hoperands, h⟩ := h
            rw [← pure_eq_ok.mp h]
            exact .switch hswitch (by omega) hoperands
        · rw [if_neg hswitch] at h
          cases hsize : Opcode.fixedLength? opcode with
          | none => simp [hsize] at h
          | some size =>
            rw [hsize] at h
            by_cases hfits : length < position + size
            · simp only [if_pos hfits] at h
              rw [bind_eq_ok] at h
              obtain ⟨_, hthrow, -⟩ := h
              simp [throw, throwThe, MonadExceptOf.throw] at hthrow
            · simp only [if_neg hfits, bind_eq_ok] at h
              obtain ⟨⟨flow, rest⟩, hflow, h⟩ := h
              rw [← pure_eq_ok.mp h]
              push Not at hswitch
              exact .fixed ⟨hwide, hswitch⟩ hsize (by omega) (fixedFlow_eq_ok.mp hflow)
  · intro h
    unfold decodeFrom
    cases h with
    | widened h =>
      simp only [if_true, bind_eq_ok]
      exact ⟨_, h, rfl⟩
    | @switch operands rest opcode size default cases hopcode hpadding h =>
      have hwide : ¬ opcode = Opcode.wide := by
        rcases hopcode with rfl | rfl <;> decide
      simp only [if_neg hwide, if_pos hopcode, if_neg (Nat.not_lt.mpr hpadding), bind_eq_ok]
      exact ⟨_, h, rfl⟩
    | @fixed operands rest opcode size flow hopcode hsize hfits h =>
      have hswitch : ¬ (opcode = Opcode.tableswitch ∨ opcode = Opcode.lookupswitch) :=
        not_or.mpr hopcode.2
      simp only [if_neg hopcode.1, if_neg hswitch, hsize, if_neg (Nat.not_lt.mpr hfits), bind_eq_ok]
      exact ⟨_, fixedFlow_eq_ok.mpr h, rfl⟩

theorem decode_eq_ok {code : List UInt8} {i : Instruction} :
    decode code position = .ok i ↔ Decodes code.length position (code.drop position) i := by
  unfold decode atPosition
  rw [mapError_eq_ok, decodeFrom_eq_ok]

theorem decode_eq_error {code : List UInt8} {error : VerifyError} : decode code position = .error error ↔
      ∃ fault, decodeFrom code.length position (code.drop position) = .error fault ∧
        VerifyError.located position fault = error :=
  mapError_eq_error

theorem fixedLength?_pos (h : Opcode.fixedLength? opcode = some size) : 1 ≤ size := by
  have hall : ∀ n : Fin 256, (Opcode.fixedLength? (UInt8.ofFin n)).all (1 ≤ ·) = true := by decide +kernel
  have hsize := hall opcode.toFin
  rw [UInt8.ofFin_toFin, h] at hsize
  simpa using hsize

theorem IsShortBranch.ne_gotoW (h : IsShortBranch opcode) : opcode ≠ Opcode.gotoW := by
  rintro rfl
  revert h
  unfold IsShortBranch
  decide

theorem fixedLength?_of_isShortBranch (h : IsShortBranch opcode) : Opcode.fixedLength? opcode = some 3 := by
  have hall : ∀ n : Fin 256, (0x99 ≤ n.val ∧ n.val ≤ 0xA7 ∨ n.val = 0xC6 ∨ n.val = 0xC7) →
      Opcode.fixedLength? (UInt8.ofFin n) = some 3 := by decide +kernel
  have hopcode := hall opcode.toFin h
  rwa [UInt8.ofFin_toFin] at hopcode

namespace Decodes

variable {bytes : List UInt8} {i : Instruction}

theorem position_eq (h : Decodes length position bytes i) : i.position = position := by
  cases h <;> rfl

theorem size_pos (h : Decodes length position bytes i) : 1 ≤ i.size := by
  cases h with
  | widened h => exact (length_of_widened h).1
  | switch hopcode hpadding h =>
    change 1 ≤ 1 + Opcode.switchPadding position + _
    omega
  | fixed hopcode hsize hfits h => exact fixedLength?_pos hsize

/-- An instruction stays inside the code that it is decoded from. -/
theorem size_le (h : Decodes length position bytes i) (hlength : position + bytes.length = length) :
    i.size ≤ bytes.length := by
  cases h with
  | @widened operands rest size opcode flow h =>
    have hwidened := (length_of_widened h).2
    show size ≤ (Opcode.wide :: operands).length
    rw [List.length_cons]
    omega
  | switch hopcode hpadding h =>
    have hoperands := length_of_switchOperands hopcode h
    rw [List.length_drop] at hoperands
    rw [List.length_cons] at hlength ⊢
    change 1 + Opcode.switchPadding position + _ ≤ _
    omega
  | @fixed operands rest opcode size flow hopcode hsize hfits h =>
    change size ≤ _
    omega

/-- A switch comes from one of the two opcodes, with padding in front of its operands. -/
theorem select_inv {default : Nat} (h : Decodes length position bytes i) (hflow : i.flow = .select default cases) :
    ∃ opcode operands rest size, bytes = opcode :: operands ∧
      (opcode = Opcode.tableswitch ∨ opcode = Opcode.lookupswitch) ∧
      switchOperands length position opcode (operands.drop (Opcode.switchPadding position))
        = .ok ((size, default, cases), rest) ∧
      i = ⟨position, 1 + Opcode.switchPadding position + size, opcode, false, .select default cases⟩ := by
  cases h with
  | widened h =>
    rcases flow_of_widened h with ⟨op, rfl⟩ | ⟨index, rfl⟩
    · simp at hflow
    · simp at hflow
  | @switch operands rest opcode size default' cases' hopcode hpadding h =>
    obtain ⟨rfl, rfl⟩ := Flow.select.inj hflow
    exact ⟨opcode, operands, rest, size, rfl, hopcode, h, rfl⟩
  | fixed hopcode hsize hfits h => cases h <;> simp at hflow

/-- A branch has a displacement of two bytes or, as a `goto_w`, of four. -/
theorem branch_inv {kind : BranchKind} {target : Nat} (h : Decodes length position bytes i)
    (hflow : i.flow = .branch kind target) :
    i.position = position ∧ i.wide = false ∧
      (IsShortBranch i.opcode ∧ kind = branchKind i.opcode.toNat ∧ i.size = 3 ∨
        i.opcode = Opcode.gotoW ∧ kind = .goto ∧ i.size = 5) := by
  cases h with
  | widened h =>
    rcases flow_of_widened h with ⟨op, rfl⟩ | ⟨index, rfl⟩
    · simp at hflow
    · simp at hflow
  | switch hopcode hpadding h => simp at hflow
  | fixed hopcode hsize hfits h =>
    refine ⟨rfl, rfl, ?_⟩
    cases h with
    | shortBranch hshort hdistance htarget =>
      obtain ⟨rfl, rfl⟩ := Flow.branch.inj hflow
      rw [fixedLength?_of_isShortBranch hshort] at hsize
      exact Or.inl ⟨hshort, rfl, (Option.some.inj hsize).symm⟩
    | longBranch hdistance htarget =>
      obtain ⟨rfl, rfl⟩ := Flow.branch.inj hflow
      have hfive : Opcode.fixedLength? Opcode.gotoW = some 5 := by decide
      rw [hfive] at hsize
      exact Or.inr ⟨rfl, rfl, (Option.some.inj hsize).symm⟩
    | shortCall => simp at hflow
    | longCall => simp at hflow
    | ret => simp at hflow
    | plain => simp at hflow

/-- A `jsr` has a displacement of two bytes, a `jsr_w` of four. -/
theorem jsr_inv {target : Nat} (h : Decodes length position bytes i) (hflow : i.flow = .jsr target) :
    i.opcode = Opcode.jsr ∧ i.size = 3 ∨ i.opcode = Opcode.jsrW ∧ i.size = 5 := by
  cases h with
  | widened h =>
    rcases flow_of_widened h with ⟨op, rfl⟩ | ⟨index, rfl⟩
    · simp at hflow
    · simp at hflow
  | switch hopcode hpadding h => simp at hflow
  | fixed hopcode hsize hfits h =>
    cases h with
    | shortBranch => simp at hflow
    | longBranch => simp at hflow
    | shortCall hdistance htarget =>
      have hthree : Opcode.fixedLength? Opcode.jsr = some 3 := by decide
      rw [hthree] at hsize
      exact Or.inl ⟨rfl, (Option.some.inj hsize).symm⟩
    | longCall hdistance htarget =>
      have hfive : Opcode.fixedLength? Opcode.jsrW = some 5 := by decide
      rw [hfive] at hsize
      exact Or.inr ⟨rfl, (Option.some.inj hsize).symm⟩
    | ret => simp at hflow
    | plain => simp at hflow

/-- An instruction takes up at least one byte wherever it is placed. -/
theorem relocatedSize_pos (h : Decodes length position bytes i) (place : Nat) : 1 ≤ i.relocatedSize place := by
  unfold relocatedSize
  split
  · rename_i default cases hflow
    obtain ⟨opcode, operands, rest, size, -, -, -, rfl⟩ := h.select_inv hflow
    change 1 ≤ 1 + Opcode.switchPadding position + size - Opcode.switchPadding position + _
    omega
  · exact h.size_pos

end Decodes

/-! ## Longer code -/

theorem targetAt_mono {length' target : Nat} {distance : Int} (hlength : length ≤ length')
    (h : targetAt length position distance = .ok target) : targetAt length' position distance = .ok target := by
  unfold targetAt at h ⊢
  dsimp only at h ⊢
  split at h
  · simp at h
  · rw [if_neg (by omega)]
    exact h

theorem tableTargets_mono {length' : Nat} {front targets : List Nat}
    (hlength : length ≤ length') (h : tableTargets length position count front input = .ok (targets, rest)) :
    tableTargets length' position count front input = .ok (targets, rest) := by
  induction count generalizing front input with
  | zero => exact h
  | succ count ih =>
    obtain ⟨distance, input', target, hdistance, htarget, h⟩ := tableTargets_succ_eq_ok.mp h
    exact tableTargets_succ_eq_ok.mpr ⟨distance, input', target, hdistance, targetAt_mono hlength htarget, ih h⟩

theorem lookupPairs_mono {length' : Nat} {front pairs : List (Int32 × Nat)} (hlength : length ≤ length')
    (h : lookupPairs length position count front input = .ok (pairs, rest)) :
    lookupPairs length' position count front input = .ok (pairs, rest) := by
  induction count generalizing front input with
  | zero => exact h
  | succ count ih =>
    obtain ⟨key, input', distance, input'', target, hkey, hdistance, horder, htarget, h⟩ := lookupPairs_succ_eq_ok.mp h
    exact lookupPairs_succ_eq_ok.mpr
      ⟨key, input', distance, input'', target, hkey, hdistance, horder, targetAt_mono hlength htarget, ih h⟩

theorem switchOperands_mono {length' default : Nat}
    (hopcode : opcode = Opcode.tableswitch ∨ opcode = Opcode.lookupswitch)
    (hlength : length ≤ length') (h : switchOperands length position opcode input = .ok ((size, default, cases), rest)) :
    switchOperands length' position opcode input = .ok ((size, default, cases), rest) := by
  rcases hopcode with rfl | rfl
  · obtain ⟨distance, input₁, low, input₂, high, input₃, targets, hdistance, hdefault, hlow, hhigh, horder, hbytes,
      htargets, hsize⟩ := switchOperands_table_eq_ok.mp h
    exact switchOperands_table_eq_ok.mpr ⟨distance, input₁, low, input₂, high, input₃, targets, hdistance,
      targetAt_mono hlength hdefault, hlow, hhigh, horder, hbytes, tableTargets_mono hlength htargets, hsize⟩
  · obtain ⟨distance, input₁, count, input₂, pairs, hdistance, hdefault, hcount, hsign, hbytes, hpairs, hsize⟩ :=
      switchOperands_lookup_eq_ok.mp h
    exact switchOperands_lookup_eq_ok.mpr ⟨distance, input₁, count, input₂, pairs, hdistance,
      targetAt_mono hlength hdefault, hcount, hsign, hbytes, lookupPairs_mono hlength hpairs, hsize⟩

theorem FlowDecodes.mono {length' : Nat} {operands : List UInt8}
    (h : FlowDecodes length position opcode operands flow rest) (hlength : length ≤ length') :
    FlowDecodes length' position opcode operands flow rest := by
  cases h with
  | shortBranch hopcode hdistance htarget => exact .shortBranch hopcode hdistance (targetAt_mono hlength htarget)
  | shortCall hdistance htarget => exact .shortCall hdistance (targetAt_mono hlength htarget)
  | longBranch hdistance htarget => exact .longBranch hdistance (targetAt_mono hlength htarget)
  | longCall hdistance htarget => exact .longCall hdistance (targetAt_mono hlength htarget)
  | ret hindex => exact .ret hindex
  | plain hbranch hopcode hop => exact .plain hbranch hopcode hop

/-- What is decoded in some code is also decoded if the code goes on further. -/
theorem Decodes.mono {length' : Nat} {bytes : List UInt8} {i : Instruction}
    (h : Decodes length position bytes i) (hlength : length ≤ length') : Decodes length' position bytes i := by
  cases h with
  | widened h => exact .widened h
  | switch hopcode hpadding h => exact .switch hopcode (by omega) (switchOperands_mono hopcode hlength h)
  | fixed hopcode hsize hfits h => exact .fixed hopcode hsize (by omega) (h.mono hlength)

/-- The code decides which instruction is decoded. -/
theorem Decodes.unique {length' : Nat} {bytes : List UInt8} {i i' : Instruction}
    (h : Decodes length position bytes i) (h' : Decodes length' position bytes i') : i = i' := by
  have hfirst := decodeFrom_eq_ok.mpr (h.mono (Nat.le_max_left length length'))
  have hsecond := decodeFrom_eq_ok.mpr (h'.mono (Nat.le_max_right length length'))
  exact Except.ok.inj (hfirst.symm.trans hsecond)

end Instruction

end Bytecode
