import Bytecode.Proofs.Decoding

/-!
# Encoded instructions can be decoded again

A branch or switch that is encoded anew at a position decodes there to the same instruction with its targets moved.
The displacement is what leads from the new position to the new target, and it never wraps around.

* `Flow.Moved`: the same flow, with targets that a relation ties to the old ones; keys of switches stay;
* `Instruction.shortOffset_eq_ok`, `Instruction.longOffset_eq_ok`: a displacement that was accepted is the distance;
* `Instruction.Encodes`: bytes that, in front of any others, decode to an instruction at a position;
* `Instruction.encodes_relocated`: the bytes of a relocated instruction encode it, with its targets moved.
-/

namespace Bytecode

variable {R : Nat → Nat → Prop} {position target : Nat} {place : Nat → Except VerifyError Nat} {flow moved : Flow}
   {cases : Cases} {pairs : List (Int32 × Nat)}

/-- The same cases of a switch, each with a target that is tied to the old one. -/
inductive Cases.Moved (R : Nat → Nat → Prop) : Cases → Cases → Prop
  | table {low : Int32} {targets moved : List Nat} (h : List.Forall₂ R targets moved) :
      Moved R (.table low targets) (.table low moved)
  | lookup {pairs moved : List (Int32 × Nat)} (h : List.Forall₂ (fun p q => p.1 = q.1 ∧ R p.2 q.2) pairs moved) :
      Moved R (.lookup pairs) (.lookup moved)

/-- The same flow, with targets that are tied to the old ones. -/
inductive Flow.Moved (R : Nat → Nat → Prop) : Flow → Flow → Prop
  | plain (op : Op) : Moved R (.plain op) (.plain op)
  | branch {kind : BranchKind} {target moved : Nat} (h : R target moved) :
      Moved R (.branch kind target) (.branch kind moved)
  | select {default default' : Nat} {cases moved : Cases} (hdefault : R default default')
      (hcases : cases.Moved R moved) : Moved R (.select default cases) (.select default' moved)

/-- The positions that a flow names, in the order of the operands. -/
def Flow.targets : Flow → List Nat
  | .plain _ | .ret _ => []
  | .branch _ target | .jsr target => [target]
  | .select default cases => default :: cases.targets

theorem Instruction.targets_eq (i : Instruction) : i.targets = i.flow.targets := rfl

theorem forall₂_imp_mem {α β : Type} {R S : α → β → Prop} {as : List α} {bs : List β} (h : List.Forall₂ R as bs)
    (hRS : ∀ a ∈ as, ∀ b, R a b → S a b) : List.Forall₂ S as bs := by
  induction h with
  | nil => exact .nil
  | @cons a b as bs hab h ih =>
    exact .cons (hRS a (List.mem_cons_self ..) b hab) (ih fun a' ha' => hRS a' (List.mem_cons_of_mem _ ha'))

theorem Cases.Moved.mono {S : Nat → Nat → Prop} {moved : Cases} (h : cases.Moved R moved)
    (hRS : ∀ t ∈ cases.targets, ∀ u, R t u → S t u) : cases.Moved S moved := by
  cases h with
  | table h => exact .table (forall₂_imp_mem h hRS)
  | lookup h =>
    refine .lookup (forall₂_imp_mem h ?_)
    intro p hp q hpq
    exact ⟨hpq.1, hRS p.2 (List.mem_map_of_mem hp) q.2 hpq.2⟩

/-- The same flow, with its targets tied by another relation. -/
theorem Flow.Moved.mono {S : Nat → Nat → Prop} (h : flow.Moved R moved)
    (hRS : ∀ t ∈ flow.targets, ∀ u, R t u → S t u) : flow.Moved S moved := by
  cases h with
  | plain op => exact .plain op
  | branch h => exact .branch (hRS _ (List.mem_cons_self ..) _ h)
  | select hdefault hcases =>
    refine .select (hRS _ (List.mem_cons_self ..) _ hdefault) (hcases.mono ?_)
    intro t ht
    exact hRS t (List.mem_cons_of_mem _ ht)

theorem Cases.Moved.forall₂_targets {moved : Cases} (h : cases.Moved R moved) :
    List.Forall₂ R cases.targets moved.targets := by
  cases h with
  | table h => exact h
  | lookup h =>
    show List.Forall₂ R (List.map Prod.snd _) (List.map Prod.snd _)
    rw [List.forall₂_map_left_iff, List.forall₂_map_right_iff]
    exact h.imp fun p q hpq => hpq.2

/-- The targets are moved one by one. -/
theorem Flow.Moved.forall₂_targets (h : flow.Moved R moved) : List.Forall₂ R flow.targets moved.targets := by
  cases h with
  | plain op => exact .nil
  | branch h => exact .cons h .nil
  | select hdefault hcases => exact .cons hdefault hcases.forall₂_targets

/-- A flow that is moved neither calls nor leaves a subroutine. -/
theorem Flow.Moved.isPlain (h : flow.Moved R moved) : (∀ target, moved ≠ .jsr target) ∧ ∀ slot, moved ≠ .ret slot := by
  cases h <;> simp

theorem forall₂_between {α β γ : Type} {R : α → β → Prop} {S : β → γ → Prop} {as : List α} {cs : List γ}
    (h : List.Forall₂ (fun a c => ∃ b, R a b ∧ S b c) as cs) : ∃ bs, List.Forall₂ R as bs ∧ List.Forall₂ S bs cs := by
  induction h with
  | nil => exact ⟨[], .nil, .nil⟩
  | cons hac h ih =>
    obtain ⟨b, hab, hbc⟩ := hac
    obtain ⟨bs, hfirst, hsecond⟩ := ih
    exact ⟨b :: bs, .cons hab hfirst, .cons hbc hsecond⟩

theorem Cases.Moved.between {S : Nat → Nat → Prop} {moved : Cases}
    (h : cases.Moved (fun t u => ∃ m, R t m ∧ S m u) moved) : ∃ middle, cases.Moved R middle ∧ middle.Moved S moved := by
  cases h with
  | table h =>
    obtain ⟨targets, hfirst, hsecond⟩ := forall₂_between h
    exact ⟨_, .table hfirst, .table hsecond⟩
  | lookup h =>
    have hpairs := h.imp (S := fun p q => ∃ r : Int32 × Nat, (p.1 = r.1 ∧ R p.2 r.2) ∧ r.1 = q.1 ∧ S r.2 q.2) ?_
    · obtain ⟨pairs, hfirst, hsecond⟩ := forall₂_between hpairs
      exact ⟨_, .lookup hfirst, .lookup hsecond⟩
    · rintro p q ⟨hkey, m, hR, hS⟩
      exact ⟨(p.1, m), ⟨rfl, hR⟩, hkey, hS⟩

/-- A flow that is moved in two steps. -/
theorem Flow.Moved.between {S : Nat → Nat → Prop}
    (h : flow.Moved (fun t u => ∃ m, R t m ∧ S m u) moved) : ∃ middle, flow.Moved R middle ∧ middle.Moved S moved := by
  cases h with
  | plain op => exact ⟨_, .plain op, .plain op⟩
  | branch h =>
    obtain ⟨m, hR, hS⟩ := h
    exact ⟨_, .branch hR, .branch hS⟩
  | select hdefault hcases =>
    obtain ⟨m, hR, hS⟩ := hdefault
    obtain ⟨middle, hfirst, hsecond⟩ := hcases.between
    exact ⟨_, .select hR hfirst, .select hS hsecond⟩

theorem Cases.Moved.unique (hR : Relator.RightUnique R) {moved moved' : Cases}
    (h : cases.Moved R moved) (h' : cases.Moved R moved') : moved = moved' := by
  cases h with
  | table h =>
    cases h' with
    | table h' => rw [List.right_unique_forall₂' hR h h']
  | lookup h =>
    cases h' with
    | lookup h' =>
      have hpairs : Relator.RightUnique fun p q : Int32 × Nat => p.1 = q.1 ∧ R p.2 q.2 := by
        rintro p q q' ⟨hkey, hq⟩ ⟨hkey', hq'⟩
        exact Prod.ext (hkey.symm.trans hkey') (hR hq hq')
      rw [List.right_unique_forall₂' hpairs h h']

/-- Where the new targets are determined, so is the flow. -/
theorem Flow.Moved.unique (hR : Relator.RightUnique R) {moved' : Flow}
    (h : flow.Moved R moved) (h' : flow.Moved R moved') : moved = moved' := by
  cases h with
  | plain op =>
    cases h' with
    | plain => rfl
  | branch h =>
    cases h' with
    | branch h' => rw [hR h h']
  | select hdefault hcases =>
    cases h' with
    | select hdefault' hcases' => rw [hR hdefault hdefault', hcases.unique hR hcases']

/-! ## Numbers -/

/-- Reading a number back gives it up to the bytes that were not written. -/
theorem Binary.ofBigEndian_bigEndian (count n : Nat) : ofBigEndian (bigEndian count n) = n % 256 ^ count := by
  induction count generalizing n with
  | zero => simp [bigEndian, ofBigEndian, Nat.mod_one]
  | succ count ih =>
    have h := ih (n / 256)
    unfold ofBigEndian at h ⊢
    rw [bigEndian, List.foldl_append, h]
    have hmod : n % 256 ^ (count + 1) = n % 256 + 256 * (n / 256 % 256 ^ count) := by
      rw [Nat.pow_succ', Nat.mod_mul]
    simp only [List.foldl_cons, List.foldl_nil, UInt8.toNat_ofNat', hmod]
    omega

namespace Instruction

theorem operand_append (bytes rest : List UInt8) :
    operand bytes.length (bytes ++ rest) = .ok (Binary.ofBigEndian bytes, rest) := by
  rw [operand_eq_ok, List.take_left, List.drop_left]
  exact ⟨by simp, rfl, rfl⟩

theorem length_write_int16 (d : Int16) : (write d).length = 2 := Binary.length_bigEndian 2 _

theorem length_write_int32 (d : Int32) : (write d).length = 4 := Binary.length_bigEndian 4 _

/-- A number of two bytes reads back as it was written. -/
theorem operand_short (d : Int16) (rest : List UInt8) :
    operand 2 (write d ++ rest) = .ok (d.toUInt16.toNat, rest) := by
  have hread : Binary.ofBigEndian (write d) = d.toUInt16.toNat := by
    show Binary.ofBigEndian (Binary.bigEndian 2 d.toUInt16.toNat) = _
    rw [Binary.ofBigEndian_bigEndian]
    exact Nat.mod_eq_of_lt d.toUInt16.toNat_lt
  rw [← length_write_int16 d, operand_append, hread]

theorem operand_long (d : Int32) (rest : List UInt8) :
    operand 4 (write d ++ rest) = .ok (d.toUInt32.toNat, rest) := by
  have hread : Binary.ofBigEndian (write d) = d.toUInt32.toNat := by
    show Binary.ofBigEndian (Binary.bigEndian 4 d.toUInt32.toNat) = _
    rw [Binary.ofBigEndian_bigEndian]
    exact Nat.mod_eq_of_lt d.toUInt32.toNat_lt
  rw [← length_write_int32 d, operand_append, hread]

theorem shortDistance_write (d : Int16) (rest : List UInt8) :
    shortDistance (write d ++ rest) = .ok (d.toInt, rest) := by
  unfold shortDistance
  rw [state_map_eq_ok]
  refine ⟨_, _, operand_short d rest, ?_⟩
  rw [UInt16.ofNat_toNat]
  rfl

theorem longDistance_write (d : Int32) (rest : List UInt8) :
    longDistance (write d ++ rest) = .ok (d.toInt, rest) := by
  unfold longDistance
  rw [state_map_eq_ok]
  refine ⟨_, _, operand_long d rest, ?_⟩
  rw [UInt32.ofNat_toNat]
  rfl

theorem int32Operand_write (d : Int32) (rest : List UInt8) :
    int32Operand (write d ++ rest) = .ok (d, rest) := by
  unfold int32Operand
  rw [state_map_eq_ok]
  refine ⟨_, _, operand_long d rest, ?_⟩
  rw [Function.comp_apply, UInt32.ofNat_toNat]
  rfl

/-! ## Displacements -/

/-- A displacement of two bytes that was accepted leads from the source to the target. -/
theorem shortOffset_eq_ok {source : Nat} {d : Int16} (hsource : source < 2 ^ 63) (htarget : target < 2 ^ 63)
    (h : shortOffset source target = .ok d) : (source : Int) + d.toInt = target := by
  unfold shortOffset distance at h
  rw [Word.signed_sub_of_lt htarget hsource] at h
  dsimp only at h
  split at h
  · rename_i hrange
    obtain rfl := Except.ok.inj h
    have hvalue : (Int16.ofInt ((target : Int) - source)).toInt = (target : Int) - source := by
      apply Int16.toInt_ofInt_of_le
      · exact hrange.1
      · exact hrange.2
    rw [hvalue]
    omega
  · simp at h

/-- A displacement of four bytes that was accepted leads from the source to the target. -/
theorem longOffset_eq_ok {source : Nat} {d : Int32} (hsource : source < 2 ^ 63) (htarget : target < 2 ^ 63)
    (h : longOffset source target = .ok d) : (source : Int) + d.toInt = target := by
  unfold longOffset distance at h
  rw [Word.signed_sub_of_lt htarget hsource] at h
  dsimp only at h
  split at h
  · rename_i hrange
    obtain rfl := Except.ok.inj h
    have hvalue : (Int32.ofInt ((target : Int) - source)).toInt = (target : Int) - source := by
      apply Int32.toInt_ofInt_of_le
      · exact hrange.1
      · exact hrange.2
    rw [hvalue]
    omega
  · simp at h

theorem targetAt_eq_ok {length : Nat} {distance : Int}
    (hdistance : (position : Int) + distance = target) (htarget : target < length) :
    targetAt length position distance = .ok target := by
  unfold targetAt
  dsimp only
  rw [hdistance, if_neg (by omega), Int.toNat_natCast]

/-! ## Cases of switches -/

/-- The positions of a table read back, from distances that lead to them. -/
theorem tableTargets_write {length : Nat} {targets : List Nat} {distances : List Int32}
    (h : List.Forall₂ (fun (t : Nat) (d : Int32) => (position : Int) + d.toInt = t ∧ t < length) targets distances)
    (front : List Nat) (rest : List UInt8) :
    tableTargets length position targets.length front (distances.flatMap write ++ rest)
      = .ok (front.reverse ++ targets, rest) := by
  induction h generalizing front with
  | nil => simp [tableTargets]
  | @cons t d targets distances hd h ih =>
    rw [List.length_cons, List.flatMap_cons, List.append_assoc, tableTargets_succ_eq_ok]
    refine ⟨d.toInt, _, t, longDistance_write d _, targetAt_eq_ok hd.1 hd.2, ?_⟩
    rw [ih, List.reverse_cons, List.append_assoc]
    rfl

/-- Each key is above the one in front. -/
def KeysAscend : Option Int32 → List (Int32 × Nat) → Prop
  | _, [] => True
  | previous, (key, _) :: rest => (∀ p ∈ previous, ¬ key ≤ p) ∧ KeysAscend (some key) rest

theorem keysAscend_congr {moved : List (Int32 × Nat)}
    (h : List.Forall₂ (fun p q => p.1 = q.1 ∧ R p.2 q.2) pairs moved) {previous : Option Int32}
    (hkeys : KeysAscend previous pairs) : KeysAscend previous moved := by
  induction h generalizing previous with
  | nil => trivial
  | @cons p q pairs moved hpq h ih =>
    obtain ⟨key, target⟩ := p
    obtain ⟨key', target'⟩ := q
    obtain rfl : key = key' := hpq.1
    exact ⟨hkeys.1, ih hkeys.2⟩

/-- The keys of a lookup that was read ascend. -/
theorem keysAscend_of_lookupPairs {length count : Nat} {front : List (Int32 × Nat)}
    {input rest : List UInt8} (h : lookupPairs length position count front input = .ok (pairs, rest)) :
    ∃ new, pairs = front.reverse ++ new ∧ KeysAscend (front.head?.map Prod.fst) new := by
  induction count generalizing front input with
  | zero =>
    simp only [lookupPairs, state_pure_eq_ok, Prod.mk.injEq] at h
    exact ⟨[], by rw [List.append_nil, h.1], trivial⟩
  | succ count ih =>
    obtain ⟨key, _, _, _, target, -, -, hless, -, h⟩ := lookupPairs_succ_eq_ok.mp h
    obtain ⟨new, hpairs, hkeys⟩ := ih h
    refine ⟨(key, target) :: new, ?_, ?_, hkeys⟩
    · rw [hpairs, List.reverse_cons, List.append_assoc]
      rfl
    · intro p hp
      obtain ⟨pair, hpair, rfl⟩ := Option.map_eq_some_iff.mp hp
      exact hless pair hpair

/-- The pairs of a lookup read back, from distances that lead to their positions. -/
theorem lookupPairs_write {length : Nat} {entries : List (List UInt8)}
    (h : List.Forall₂ (fun (p : Int32 × Nat) (bytes : List UInt8) => ∃ d : Int32, bytes = write p.1 ++ write d ∧
      (position : Int) + d.toInt = p.2 ∧ p.2 < length) pairs entries)
    (front : List (Int32 × Nat)) (hkeys : KeysAscend (front.head?.map Prod.fst) pairs) (rest : List UInt8) :
    lookupPairs length position pairs.length front (entries.flatten ++ rest) = .ok (front.reverse ++ pairs, rest) := by
  induction h generalizing front with
  | nil => simp [lookupPairs]
  | @cons p bytes pairs entries hd h ih =>
    obtain ⟨key, target⟩ := p
    obtain ⟨d, rfl, hdistance, htarget⟩ := hd
    rw [List.length_cons, List.flatten_cons, List.append_assoc, List.append_assoc, lookupPairs_succ_eq_ok]
    refine ⟨key, _, d.toInt, _, target, int32Operand_write key _, longDistance_write d _, ?_,
      targetAt_eq_ok hdistance htarget, ?_⟩
    · intro pair hpair
      exact hkeys.1 pair.1 (Option.mem_map_of_mem Prod.fst hpair)
    · rw [ih ((key, target) :: front) hkeys.2, List.reverse_cons, List.append_assoc]
      rfl

theorem length_flatMap_write (distances : List Int32) : (distances.flatMap write).length = 4 * distances.length := by
  induction distances with
  | nil => rfl
  | cons d distances ih =>
    rw [List.flatMap_cons, List.length_append, ih, length_write_int32, List.length_cons]
    omega

theorem length_flatten_entries {P : Int32 × Nat → Int32 → Prop} {entries : List (List UInt8)}
    (h : List.Forall₂ (fun p bytes => ∃ d : Int32, bytes = write p.1 ++ write d ∧ P p d) pairs entries) :
    entries.flatten.length = 8 * pairs.length := by
  induction h with
  | nil => rfl
  | @cons p bytes pairs entries hd h ih =>
    obtain ⟨d, rfl, -⟩ := hd
    rw [List.flatten_cons, List.length_append, List.length_append, ih, length_write_int32, length_write_int32,
      List.length_cons]
    omega

/-- The greatest key of a table follows from the least and the number of entries. -/
theorem high_of_tableCount {low high : Int32} (h : ¬ high < low) :
    low + Int32.ofNat (tableCount low high) - 1 = high := by
  have hle : low.toInt ≤ high.toInt := by
    rw [← Int32.le_iff_toInt_le]
    exact Int32.not_lt.mp h
  have hcount : ((tableCount low high : Nat) : Int) = high.toInt - low.toInt + 1 := by
    unfold tableCount
    omega
  calc low + Int32.ofNat (tableCount low high) - 1
      = Int32.ofInt low.toInt + Int32.ofInt (tableCount low high : Nat) - Int32.ofInt 1 := by
        rw [Int32.ofInt_toInt, Int32.ofInt_eq_ofNat]
        rfl
    _ = Int32.ofInt (low.toInt + (tableCount low high : Nat) - 1) := by
        rw [Int32.ofInt_sub, Int32.ofInt_add]
    _ = high := by
        rw [hcount, show low.toInt + (high.toInt - low.toInt + 1) - 1 = high.toInt by omega, Int32.ofInt_toInt]

theorem ofNat_of_count {count : Int32} (h : ¬ count < 0) : Int32.ofNat count.toInt.toNat = count := by
  have hle : (0 : Int) ≤ count.toInt := by
    have := Int32.le_iff_toInt_le.mp (Int32.not_lt.mp h)
    simpa using this
  rw [← Int32.ofInt_eq_ofNat, Int.toNat_of_nonneg hle, Int32.ofInt_toInt]

/-! ## Relocated instructions -/

theorem ofExcept_eq_ok {α : Type} {x : Except VerifyError α} {a : α} :
    (MonadExcept.ofExcept x : Except VerifyError α) = .ok a ↔ x = .ok a := by
  cases x with
  | error e => simp [MonadExcept.ofExcept, throw, throwThe, MonadExceptOf.throw]
  | ok b => simp [MonadExcept.ofExcept]

theorem switchDistance_eq_ok {d : Int32} :
    switchDistance place position target = .ok d ↔ ∃ u, place target = .ok u ∧ longOffset position u = .ok d := by
  unfold switchDistance
  rw [bind_eq_ok]
  constructor
  · rintro ⟨u, hu, hd⟩
    exact ⟨u, hu, ofExcept_eq_ok.mp hd⟩
  · rintro ⟨u, hu, hd⟩
    exact ⟨u, hu, ofExcept_eq_ok.mpr hd⟩

/-- What the bytes of an instruction placed at a position are good for: they have its size and, in front of any
others, decode to it.  Its targets have to be inside the code. -/
structure Encodes (position : Nat) (piece : List UInt8) (i : Instruction) : Prop where
  position_eq : i.position = position
  length_eq : piece.length = i.size
  decodes : ∀ (length : Nat) (rest : List UInt8), (∀ t ∈ i.targets, t < length) → position + i.size ≤ length →
    Decodes length position (piece ++ rest) i

/-- A branch with a displacement of two bytes. -/
theorem encodes_shortBranch {opcode : UInt8} {d : Int16} (hopcode : IsShortBranch opcode)
    (hd : (position : Int) + d.toInt = target) :
    Encodes position (opcode :: write d) ⟨position, 3, opcode, false, .branch (branchKind opcode.toNat) target⟩ where
  position_eq := rfl
  length_eq := by
    rw [List.length_cons, length_write_int16]
  decodes length rest htarget hfits := by
    have hothers : opcode ≠ Opcode.wide ∧ opcode ≠ Opcode.tableswitch ∧ opcode ≠ Opcode.lookupswitch := by
      refine ⟨?_, ?_, ?_⟩
      all_goals
        rintro rfl
        revert hopcode
        unfold IsShortBranch
        decide
    have hinside : target < length := htarget target (by simp [targets])
    have hflow : FlowDecodes length position opcode (write d ++ rest) (.branch (branchKind opcode.toNat) target) rest :=
      .shortBranch hopcode (shortDistance_write d rest) (targetAt_eq_ok hd hinside)
    rw [List.cons_append]
    exact .fixed hothers (fixedLength?_of_isShortBranch hopcode) hfits hflow

/-- A `goto_w`. -/
theorem encodes_longBranch {d : Int32} (hd : (position : Int) + d.toInt = target) :
    Encodes position (Opcode.gotoW :: write d) ⟨position, 5, Opcode.gotoW, false, .branch .goto target⟩ where
  position_eq := rfl
  length_eq := by
    rw [List.length_cons, length_write_int32]
  decodes length rest htarget hfits := by
    have hinside : target < length := htarget target (by simp [targets])
    have hflow : FlowDecodes length position Opcode.gotoW (write d ++ rest) (.branch .goto target) rest :=
      .longBranch (longDistance_write d rest) (targetAt_eq_ok hd hinside)
    rw [List.cons_append]
    exact .fixed (by decide) (by decide) hfits hflow

/-- What follows the padding of a switch that is placed at a position. -/
theorem encodes_switch {default size : Nat} {opcode : UInt8} {operands : List UInt8}
    (hopcode : opcode = Opcode.tableswitch ∨ opcode = Opcode.lookupswitch) (hlength : operands.length = size)
    (hoperands : ∀ (length : Nat) (rest : List UInt8), (∀ t ∈ default :: cases.targets, t < length) →
      switchOperands length position opcode (operands ++ rest) = .ok ((size, default, cases), rest)) :
    Encodes position (opcode :: (List.replicate (Opcode.switchPadding position) 0 ++ operands))
      ⟨position, 1 + Opcode.switchPadding position + size, opcode, false, .select default cases⟩ where
  position_eq := rfl
  length_eq := by
    rw [List.length_cons, List.length_append, List.length_replicate, hlength]
    show Opcode.switchPadding position + size + 1 = 1 + Opcode.switchPadding position + size
    omega
  decodes length rest htarget hfits := by
    have hfits' : position + (1 + Opcode.switchPadding position + size) ≤ length := hfits
    rw [List.cons_append]
    refine @Decodes.switch length position _ rest opcode size default cases hopcode (by omega) ?_
    rw [List.append_assoc, List.drop_left' (List.length_replicate ..)]
    exact hoperands length rest htarget

theorem encodes_table {default : Nat} {low high : Int32} {d : Int32} {targets : List Nat}
    {distances : List Int32} (horder : ¬ high < low) (hcount : targets.length = tableCount low high)
    (hd : (position : Int) + d.toInt = default)
    (hdistances : List.Forall₂ (fun (t : Nat) (d : Int32) => (position : Int) + d.toInt = t) targets distances) :
    Encodes position (Opcode.tableswitch :: (List.replicate (Opcode.switchPadding position) 0 ++
        (write d ++ (write low ++ (write high ++ distances.flatMap write)))))
      ⟨position, 1 + Opcode.switchPadding position + (12 + 4 * tableCount low high), Opcode.tableswitch, false,
        .select default (.table low targets)⟩ := by
  have hentries : distances.length = tableCount low high := by
    rw [← hdistances.length_eq, hcount]
  refine encodes_switch (Or.inl rfl) ?_ ?_
  · rw [List.length_append, List.length_append, List.length_append, length_write_int32, length_write_int32,
      length_write_int32, length_flatMap_write, hentries]
    omega
  · intro length rest htarget
    have hinside : List.Forall₂ (fun (t : Nat) (d : Int32) => (position : Int) + d.toInt = t ∧ t < length)
        targets distances := by
      refine List.forall₂_iff_get.mpr ⟨hdistances.length_eq, ?_⟩
      intro k hk hk'
      exact ⟨hdistances.get hk hk', htarget _ (List.mem_cons_of_mem _ (List.get_mem targets ⟨k, hk⟩))⟩
    rw [switchOperands_table_eq_ok]
    simp only [List.append_assoc]
    refine ⟨d.toInt, write low ++ (write high ++ (distances.flatMap write ++ rest)), low,
      write high ++ (distances.flatMap write ++ rest), high, distances.flatMap write ++ rest, targets,
      longDistance_write d _, targetAt_eq_ok hd (htarget default (List.mem_cons_self ..)),
      int32Operand_write low _, int32Operand_write high _, horder, ?_, ?_, rfl, rfl⟩
    · rw [List.length_append, length_flatMap_write, hentries]
      omega
    · rw [← hcount]
      exact tableTargets_write hinside [] rest

theorem encodes_lookup {default : Nat} {count d : Int32}
    {entries : List (List UInt8)} (hsign : ¬ count < 0) (hcount : pairs.length = count.toInt.toNat)
    (hkeys : KeysAscend none pairs) (hd : (position : Int) + d.toInt = default)
    (hentries : List.Forall₂ (fun (p : Int32 × Nat) (bytes : List UInt8) => ∃ d : Int32,
      bytes = write p.1 ++ write d ∧ (position : Int) + d.toInt = p.2) pairs entries) :
    Encodes position (Opcode.lookupswitch :: (List.replicate (Opcode.switchPadding position) 0 ++
        (write d ++ (write count ++ entries.flatten))))
      ⟨position, 1 + Opcode.switchPadding position + (8 + 8 * count.toInt.toNat), Opcode.lookupswitch, false,
        .select default (.lookup pairs)⟩ := by
  have hlength : entries.flatten.length = 8 * count.toInt.toNat := by
    rw [← hcount]
    exact length_flatten_entries hentries
  refine encodes_switch (Or.inr rfl) ?_ ?_
  · rw [List.length_append, List.length_append, length_write_int32, length_write_int32, hlength]
    omega
  · intro length rest htarget
    have hinside : List.Forall₂ (fun (p : Int32 × Nat) (bytes : List UInt8) => ∃ d : Int32,
        bytes = write p.1 ++ write d ∧ (position : Int) + d.toInt = p.2 ∧ p.2 < length) pairs entries := by
      refine List.forall₂_iff_get.mpr ⟨hentries.length_eq, ?_⟩
      intro k hk hk'
      obtain ⟨d, hbytes, hdistance⟩ := hentries.get hk hk'
      refine ⟨d, hbytes, hdistance, htarget _ (List.mem_cons_of_mem _ ?_)⟩
      exact List.mem_map_of_mem (List.get_mem pairs ⟨k, hk⟩)
    rw [switchOperands_lookup_eq_ok]
    simp only [List.append_assoc]
    refine ⟨d.toInt, write count ++ (entries.flatten ++ rest), count, entries.flatten ++ rest, pairs,
      longDistance_write d _, targetAt_eq_ok hd (htarget default (List.mem_cons_self ..)),
      int32Operand_write count _, hsign, ?_, ?_, rfl, rfl⟩
    · rw [List.length_append, hlength]
      omega
    · rw [← hcount]
      exact lookupPairs_write hinside [] hkeys rest

theorem encodes_relocated_branch {i : Instruction} {codeLength : Nat} {kind : BranchKind} {old piece : List UInt8}
    (hi : Decodes codeLength i.position old i) (hflow : i.flow = .branch kind target) (hposition : position < 2 ^ 63)
    (hplace : ∀ u, place target = .ok u → u < 2 ^ 63) (h : i.relocated position place = .ok piece) :
    ∃ u, place target = .ok u ∧ Encodes position piece ⟨position, i.size, i.opcode, i.wide, .branch kind u⟩ := by
  obtain ⟨-, hwide, hkind⟩ := hi.branch_inv hflow
  unfold relocated at h
  simp only [hflow] at h
  obtain ⟨u, hu, h⟩ := bind_eq_ok.mp h
  refine ⟨u, hu, ?_⟩
  rw [hwide]
  rcases hkind with ⟨hshort, rfl, hsize⟩ | ⟨hopcode, rfl, hsize⟩
  · rw [if_neg hshort.ne_gotoW] at h
    obtain ⟨d, hd, h⟩ := bind_eq_ok.mp h
    obtain rfl := pure_eq_ok.mp h
    rw [hsize]
    exact encodes_shortBranch hshort (shortOffset_eq_ok hposition (hplace u hu) (ofExcept_eq_ok.mp hd))
  · rw [if_pos hopcode] at h
    obtain ⟨d, hd, h⟩ := bind_eq_ok.mp h
    obtain rfl := pure_eq_ok.mp h
    rw [hsize, hopcode]
    exact encodes_longBranch (longOffset_eq_ok hposition (hplace u hu) (ofExcept_eq_ok.mp hd))

/-- Distances of a table that was placed lead to where its targets went. -/
theorem distances_of_mapM {targets : List Nat}
    {distances : List Int32} (hposition : position < 2 ^ 63) (hplace : ∀ t ∈ targets, ∀ u, place t = .ok u → u < 2 ^ 63)
    (h : targets.mapM (switchDistance place position) = .ok distances) :
    ∃ moved, List.Forall₂ (fun t u => place t = .ok u) targets moved ∧
      List.Forall₂ (fun (u : Nat) (d : Int32) => (position : Int) + d.toInt = u) moved distances := by
  have hall := mapM_eq_ok.mp h
  clear h
  induction hall with
  | nil => exact ⟨[], .nil, .nil⟩
  | @cons t d targets distances hd hall ih =>
    obtain ⟨moved, hmoved, hdistances⟩ := ih fun t' ht' => hplace t' (List.mem_cons_of_mem _ ht')
    obtain ⟨u, hu, hoffset⟩ := switchDistance_eq_ok.mp hd
    have hinside := hplace t (List.mem_cons_self ..) u hu
    exact ⟨u :: moved, .cons hu hmoved, .cons (longOffset_eq_ok hposition hinside hoffset) hdistances⟩

/-- Entries of a lookup that was placed have its keys, and distances that lead to where its targets went. -/
theorem entries_of_mapM {entries : List (List UInt8)} (hposition : position < 2 ^ 63)
    (hplace : ∀ p ∈ pairs, ∀ u, place p.2 = .ok u → u < 2 ^ 63) (h : pairs.mapM (fun (key, target) => do
      return write key ++ write (← switchDistance place position target)) = .ok entries) :
    ∃ moved, List.Forall₂ (fun p q : Int32 × Nat => p.1 = q.1 ∧ place p.2 = .ok q.2) pairs moved ∧
      List.Forall₂ (fun (q : Int32 × Nat) (bytes : List UInt8) => ∃ d : Int32, bytes = write q.1 ++ write d ∧
        (position : Int) + d.toInt = q.2) moved entries := by
  have hall := mapM_eq_ok.mp h
  clear h
  induction hall with
  | nil => exact ⟨[], .nil, .nil⟩
  | @cons p bytes pairs entries hp hall ih =>
    obtain ⟨moved, hmoved, hentries⟩ := ih fun p' hp' => hplace p' (List.mem_cons_of_mem _ hp')
    obtain ⟨key, target⟩ := p
    obtain ⟨d, hd, hbytes⟩ := bind_eq_ok.mp hp
    obtain ⟨u, hu, hoffset⟩ := switchDistance_eq_ok.mp hd
    have hinside := hplace (key, target) (List.mem_cons_self ..) u hu
    refine ⟨(key, u) :: moved, .cons ⟨rfl, hu⟩ hmoved, .cons ?_ hentries⟩
    exact ⟨d, (pure_eq_ok.mp hbytes).symm, longOffset_eq_ok hposition hinside hoffset⟩

theorem encodes_relocated_select {i : Instruction} {codeLength default : Nat} {old piece : List UInt8}
    (hi : Decodes codeLength i.position old i) (hflow : i.flow = .select default cases)
    (hposition : position < 2 ^ 63) (hplace : ∀ t ∈ default :: cases.targets, ∀ u, place t = .ok u → u < 2 ^ 63)
    (h : i.relocated position place = .ok piece) :
    ∃ u moved, place default = .ok u ∧ cases.Moved (fun t u => place t = .ok u) moved ∧
      Encodes position piece ⟨position, i.relocatedSize position, i.opcode, i.wide, .select u moved⟩ := by
  obtain ⟨opcode, operands, rest, size, -, hopcode, hoperands, hshape⟩ := hi.select_inv hflow
  have hsize : i.relocatedSize position = 1 + Opcode.switchPadding position + size := by
    unfold relocatedSize
    simp only [hflow]
    have hold : i.size = 1 + Opcode.switchPadding i.position + size := by rw [hshape]
    omega
  have hopcode' : i.opcode = opcode := by rw [hshape]
  have hwide : i.wide = false := by rw [hshape]
  unfold relocated at h
  simp only [hflow] at h
  obtain ⟨d, hd, h⟩ := bind_eq_ok.mp h
  obtain ⟨bytes, hbytes, h⟩ := bind_eq_ok.mp h
  obtain rfl := pure_eq_ok.mp h
  obtain ⟨u, hu, hoffset⟩ := switchDistance_eq_ok.mp hd
  have hdefault := longOffset_eq_ok hposition (hplace default (List.mem_cons_self ..) u hu) hoffset
  rw [hsize, hwide, hopcode', List.append_assoc]
  rcases hopcode with rfl | rfl
  · obtain ⟨_, _, low, _, high, _, targets, -, -, -, -, horder, -, htargets, rfl, rfl⟩ :=
      switchOperands_table_eq_ok.mp hoperands
    have hcount : targets.length = tableCount low high := by
      have hlength := length_of_tableTargets htargets
      simpa using hlength
    obtain ⟨distances, hdistances, hbytes⟩ := bind_eq_ok.mp hbytes
    obtain ⟨moved, hmoved, hdistances⟩ := distances_of_mapM hposition
      (fun t ht => hplace t (List.mem_cons_of_mem _ ht)) hdistances
    have hhigh : low + Int32.ofNat targets.length - 1 = high := by
      rw [hcount]
      exact high_of_tableCount horder
    refine ⟨u, .table low moved, hu, .table hmoved, ?_⟩
    rw [← pure_eq_ok.mp hbytes, hhigh, List.append_assoc]
    exact encodes_table horder (hmoved.length_eq.symm.trans hcount) hdefault hdistances
  · obtain ⟨_, _, count, _, pairs, -, -, -, hsign, -, hpairs, rfl, rfl⟩ := switchOperands_lookup_eq_ok.mp hoperands
    have hcount : pairs.length = count.toInt.toNat := by
      have hlength := length_of_lookupPairs hpairs
      simpa using hlength
    obtain ⟨entries, hentries, hbytes⟩ := bind_eq_ok.mp hbytes
    obtain ⟨moved, hmoved, hentries⟩ := entries_of_mapM hposition
      (fun p hp => hplace p.2 (List.mem_cons_of_mem _ (List.mem_map_of_mem hp))) hentries
    obtain ⟨new, hnew, hkeys⟩ := keysAscend_of_lookupPairs hpairs
    obtain rfl : pairs = new := by simpa using hnew
    refine ⟨u, .lookup moved, hu, .lookup hmoved, ?_⟩
    rw [← pure_eq_ok.mp hbytes, hcount, ofNat_of_count hsign]
    have hkeys' := keysAscend_congr (R := fun t u => place t = .ok u) hmoved hkeys
    exact encodes_lookup hsign (hmoved.length_eq.symm.trans hcount) hkeys' hdefault hentries

/-- A branch or switch that is encoded at a new position is the same instruction there, with its targets moved. -/
theorem encodes_relocated {i : Instruction} {codeLength : Nat}
    {old piece : List UInt8} (hi : Decodes codeLength i.position old i) (hposition : position < 2 ^ 63)
    (hplace : ∀ t ∈ i.targets, ∀ u, place t = .ok u → u < 2 ^ 63) (h : i.relocated position place = .ok piece) :
    ∃ flow, i.flow.Moved (fun t u => place t = .ok u) flow ∧
      Encodes position piece ⟨position, i.relocatedSize position, i.opcode, i.wide, flow⟩ := by
  rw [targets_eq] at hplace
  cases hflow : i.flow with
  | branch kind target =>
    rw [hflow] at hplace
    have hplace := hplace target (List.mem_cons_self ..)
    obtain ⟨u, hu, hencodes⟩ := encodes_relocated_branch hi hflow hposition hplace h
    refine ⟨.branch kind u, .branch hu, ?_⟩
    have hsize : i.relocatedSize position = i.size := by simp [relocatedSize, hflow]
    rw [hsize]
    exact hencodes
  | select default cases =>
    rw [hflow] at hplace
    obtain ⟨u, moved, hu, hmoved, hencodes⟩ := encodes_relocated_select hi hflow hposition hplace h
    exact ⟨.select u moved, .select hu hmoved, hencodes⟩
  | plain op => simp [relocated, hflow, throw, throwThe, MonadExceptOf.throw] at h
  | jsr target => simp [relocated, hflow, throw, throwThe, MonadExceptOf.throw] at h
  | ret index => simp [relocated, hflow, throw, throwThe, MonadExceptOf.throw] at h

/-! ## Copied instructions -/

/-- A reader that takes at most so many bytes and does not look at the others. -/
def Reads (n : Nat) {α : Type} (x : Operands α) : Prop :=
  ∀ input a rest, x input = .ok (a, rest) →
    ∃ used, input = used ++ rest ∧ used.length ≤ n ∧ ∀ rest', x (used ++ rest') = .ok (a, rest')

namespace Reads

variable {α β : Type} {n : Nat}

theorem pure (a : α) : Reads n (Pure.pure a : Operands α) := by
  intro input b rest h
  obtain ⟨rfl, rfl⟩ := Prod.mk.inj (state_pure_eq_ok.mp h)
  exact ⟨[], rfl, Nat.zero_le _, fun rest' => rfl⟩

theorem throw (fault : VerifyFault) : Reads n (MonadExcept.throw fault : Operands α) := by
  intro input a rest h
  exact (state_throw_ne_ok.mp h).elim

theorem bind {j k : Nat} {x : Operands α} {f : α → Operands β} (hx : Reads j x) (hf : ∀ a, Reads k (f a))
    (hn : j + k ≤ n) : Reads n (x >>= f) := by
  intro input b rest h
  obtain ⟨a, middle, hread, hthen⟩ := state_bind_eq_ok.mp h
  obtain ⟨used, rfl, hused, hagain⟩ := hx _ _ _ hread
  obtain ⟨used', rfl, hused', hagain'⟩ := hf a _ _ _ hthen
  refine ⟨used ++ used', (List.append_assoc ..).symm, ?_, ?_⟩
  · rw [List.length_append]
    omega
  · intro rest'
    rw [List.append_assoc, state_bind_eq_ok]
    exact ⟨a, used' ++ rest', hagain _, hagain' rest'⟩

theorem map {f : α → β} {x : Operands α} (hx : Reads n x) : Reads n (f <$> x) := by
  intro input b rest h
  obtain ⟨a, middle, hread, heq⟩ := state_map_eq_ok.mp h
  obtain ⟨rfl, rfl⟩ := Prod.mk.inj heq
  obtain ⟨used, rfl, hused, hagain⟩ := hx _ _ _ hread
  refine ⟨used, rfl, hused, ?_⟩
  intro rest'
  rw [state_map_eq_ok]
  exact ⟨a, rest', hagain rest', rfl⟩

theorem operand (count : Nat) : Reads count (Instruction.operand count) := by
  intro input a rest h
  obtain ⟨hle, rfl, rfl⟩ := operand_eq_ok.mp h
  have hlength : (input.take count).length = count := List.length_take_of_le hle
  refine ⟨input.take count, (List.take_append_drop ..).symm, Nat.le_of_eq hlength, ?_⟩
  intro rest'
  have hagain := operand_append (input.take count) rest'
  rwa [hlength] at hagain

theorem ite {c : Prop} [Decidable c] {x y : Operands α} (hx : c → Reads n x) (hy : ¬ c → Reads n y) :
    Reads n (if c then x else y) := by
  by_cases hc : c
  · rw [if_pos hc]
    exact hx hc
  · rw [if_neg hc]
    exact hy hc

end Reads

/-- An operation without a branch is read from the bytes that its opcode fixes. -/
theorem reads_plain {opcode : UInt8} {size : Nat} (hsize : Opcode.fixedLength? opcode = some size) :
    Reads (size - 1) (plain opcode) := by
  -- how many bytes the opcodes with operands have at least
  have hall : ∀ n : Fin 256, (Opcode.fixedLength? (UInt8.ofFin n)).all (fun size =>
      (n.val = 0x12 ∨ 0x15 ≤ n.val ∧ n.val ≤ 0x19 ∨ 0x36 ≤ n.val ∧ n.val ≤ 0x3A ∨ n.val = 0xBC → 2 ≤ size) ∧
      (n.val = 0x13 ∨ n.val = 0x14 ∨ n.val = 0x84 ∨ 0xB2 ≤ n.val ∧ n.val ≤ 0xBB ∨ n.val = 0xBD ∨ n.val = 0xC0 ∨
        n.val = 0xC1 → 3 ≤ size) ∧
      (n.val = 0xC5 → 4 ≤ size)) = true := by decide +kernel
  have hopcode := hall opcode.toFin
  rw [UInt8.ofFin_toFin, hsize] at hopcode
  simp only [Option.all_some, decide_eq_true_eq] at hopcode
  obtain ⟨hone, htwo, hthree⟩ := hopcode
  have hvalue : opcode.toFin.val = opcode.toNat := rfl
  rw [hvalue] at hone htwo hthree
  have hindex : ∀ {α : Type} {f : UInt16 → α}, 2 ≤ size →
      Reads (size - 1) (shortIndex >>= fun index => Pure.pure (f index)) := by
    intro α f h
    exact .bind (.map (.operand 1)) (fun _ => .pure (n := 0) _) (by omega)
  have hlong : ∀ {α : Type} {f : UInt16 → α}, 3 ≤ size →
      Reads (size - 1) (longIndex >>= fun index => Pure.pure (f index)) := by
    intro α f h
    exact .bind (.map (.operand 2)) (fun _ => .pure (n := 0) _) (by omega)
  unfold plain
  dsimp only
  repeat'
    first
      | exact .pure _
      | exact .throw _
      | refine .ite (fun _ => ?_) (fun _ => ?_)
  all_goals
    first
      | exact hindex (hone (by omega))
      | exact hlong (htwo (by omega))
      | skip
  · -- `iinc`
    have hsize' := htwo (by omega)
    exact .bind (.map (.operand 1)) (fun _ => .bind (.map (.operand 1)) (fun _ => .pure (n := 0) _) (Nat.le_refl 1))
      (by omega)
  · -- `newarray`
    have hsize' := hone (by omega)
    refine .bind (k := 0) (.map (.operand 1)) (fun code => ?_) (by omega)
    cases newArrayType? code.toNat with
    | some element => exact .pure _
    | none => exact .throw _
  · -- `multianewarray`
    have hsize' := hthree (by omega)
    exact .bind (.map (.operand 2)) (fun _ => .bind (.map (.operand 1)) (fun _ => .pure (n := 0) _) (Nat.le_refl 1))
      (by omega)

theorem reads_widened : Reads 5 widened := by
  unfold widened
  refine .bind (k := 4) (.map (.operand 1)) (fun opcode => ?_) (by omega)
  refine .bind (k := 2) (.map (.operand 2)) (fun index => ?_) (by omega)
  refine .ite (fun _ => ?_) (fun _ => ?_)
  · exact .bind (.operand 2) (fun _ => .pure (n := 0) _) (by omega)
  · exact .ite (fun _ => .pure _) fun _ => .ite (fun _ => .pure _) fun _ => .ite (fun _ => .pure _) fun _ => .throw _

/-- An operation without a branch can be copied to any position. -/
theorem encodes_copied {i : Instruction} {codeLength source : Nat} {op : Op} {bytes : List UInt8}
    (hi : Decodes codeLength source bytes i) (hflow : i.flow = .plain op) (hlength : i.size ≤ bytes.length)
    (position : Nat) : Encodes position (bytes.take i.size) { i with position } where
  position_eq := rfl
  length_eq := List.length_take_of_le hlength
  decodes length rest _ hfits := by
    cases hi with
    | @widened operands after size opcode flow h =>
      obtain ⟨used, rfl, -, hagain⟩ := reads_widened _ _ _ h
      obtain ⟨hpos, hsize⟩ := length_of_widened h
      rw [List.length_append] at hsize
      obtain ⟨count, rfl⟩ : ∃ count, size = count + 1 := ⟨size - 1, by omega⟩
      have htake : (used ++ after).take count = used := by
        rw [show count = used.length by omega]
        exact List.take_left
      show Decodes length position (List.take (count + 1) (Opcode.wide :: (used ++ after)) ++ rest) _
      rw [List.take_succ_cons, htake, List.cons_append]
      exact .widened (hagain rest)
    | switch => simp at hflow
    | @fixed operands after opcode size flow hopcode hsize hinside h =>
      cases h with
      | @plain _ _ _ op' hbranch hothers hop =>
        obtain ⟨used, rfl, hused, hagain⟩ := reads_plain hsize _ _ _ hop
        have hpos := fixedLength?_pos hsize
        obtain ⟨count, rfl⟩ : ∃ count, size = count + 1 := ⟨size - 1, by omega⟩
        obtain ⟨more, hmore⟩ : ∃ more, (used ++ after).take count = used ++ more :=
          ⟨after.take (count - used.length), by rw [List.take_append, List.take_of_length_le (by omega)]⟩
        show Decodes length position (List.take (count + 1) (opcode :: (used ++ after)) ++ rest) _
        rw [List.take_succ_cons, hmore, List.cons_append, List.append_assoc]
        exact .fixed hopcode hsize hfits (.plain hbranch hothers (hagain _))
      | shortBranch => simp at hflow
      | shortCall => simp at hflow
      | longBranch => simp at hflow
      | longCall => simp at hflow
      | ret => simp at hflow

end Instruction

end Bytecode
