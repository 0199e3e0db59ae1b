import Bytecode.Proofs.EncodedLength
import Bytecode.Proofs.Encoding

/-!
# Moving instructions and reading them back

A branch or switch can be moved exactly if all its targets have a place that its displacements can lead to, and what is
written then reads back as the same instruction in the new place.

* `Instruction.Fits`: the displacements that an instruction can hold;
* `Instruction.blame?`: what is wrong with a target, and `Instruction.errorOf?_relocated`: moving fails for the first
  target with which something is wrong, and for no other reason;
* `Instruction.length_relocated`: as many bytes are written as the size in the new place;
* `Instruction.relocated_reads_back`: all of it.

Displacements are words with a sign.  They are differences of positions as long as positions are below `2 ^ 63`
(`Instruction.distance_eq_sub`); beyond, a displacement can wrap around and seem small
(`Instruction.wrapped_displacement`).
-/

namespace Bytecode

/-- How many bytes the bounds or count of a switch and its entries have. -/
def Cases.encodedSize : Cases → Nat
  | .table _ targets => 8 + 4 * targets.length
  | .lookup pairs => 4 + 8 * pairs.length

namespace Instruction

variable {i : Instruction} {position : Nat} {place : Nat → Except VerifyError Nat}

/-- The instruction names positions to go to, other than to call a subroutine. -/
def IsBranching (i : Instruction) : Prop :=
  (∃ kind target, i.flow = .branch kind target) ∨ ∃ default cases, i.flow = .select default cases

/-- The displacements that an instruction can hold: in a branch of three bytes they have two bytes, in a `goto_w` or a
switch four. -/
def Fits (i : Instruction) (displacement : Int) : Prop :=
  if i.size = 3 then -0x8000 ≤ displacement ∧ displacement < 0x8000
  else -0x80000000 ≤ displacement ∧ displacement < 0x80000000

instance (i : Instruction) : DecidablePred i.Fits := fun displacement =>
  inferInstanceAs (Decidable (if i.size = 3 then -0x8000 ≤ displacement ∧ displacement < 0x8000
    else -0x80000000 ≤ displacement ∧ displacement < 0x80000000))

/-- A target has a place that a displacement can lead to. -/
def Leads (i : Instruction) (position : Nat) (place : Nat → Except VerifyError Nat) (target : Nat) : Prop :=
  ∃ u, place target = .ok u ∧ i.Fits (distance position u)

/-- What is wrong with a target: it has no place, or one that is too far away. -/
def blame? (i : Instruction) (position : Nat) (place : Nat → Except VerifyError Nat) (target : Nat) :
    Option VerifyError :=
  errorOf? do
    let u ← place target
    if i.Fits (distance position u) then pure () else .error (.located position .offsetOverflow)

theorem blame?_eq_none {target : Nat} : i.blame? position place target = none ↔ i.Leads position place target := by
  unfold blame? Leads
  rw [errorOf?_eq_none]
  cases place target with
  | error e => simp [bind, Except.bind]
  | ok u =>
    by_cases hfits : i.Fits (distance position u) <;> simp [bind, Except.bind, hfits]

theorem blame?_eq_some {target : Nat} {e : VerifyError} :
    i.blame? position place target = some e ↔ place target = .error e ∨
      ∃ u, place target = .ok u ∧ ¬ i.Fits (distance position u) ∧ e = .located position .offsetOverflow := by
  unfold blame?
  rw [errorOf?_eq_some]
  cases place target with
  | error e' => simp [bind, Except.bind]
  | ok u =>
    by_cases hfits : i.Fits (distance position u)
    · simp [bind, Except.bind, hfits]
    · simp [bind, Except.bind, hfits, eq_comm]

/-- As long as positions are below `2 ^ 63`, displacements are their differences. -/
theorem distance_eq_sub {target : Nat} (hposition : position < 2 ^ 63) (htarget : target < 2 ^ 63) :
    distance position target = (target : Int) - position :=
  Word.signed_sub_of_lt htarget hposition

/-! ## What can go wrong -/

theorem errorOf?_ofExcept {α : Type} (x : Except VerifyError α) :
    errorOf? (MonadExcept.ofExcept x : Except VerifyError α) = errorOf? x := by
  cases x <;> rfl

/-- A displacement of two bytes in a branch of three. -/
theorem errorOf?_shortOffset (hsize : i.size = 3) (target : Nat) :
    errorOf? (shortOffset position target) =
      if i.Fits (distance position target) then none else some (.located position .offsetOverflow) := by
  simp only [shortOffset, Fits, if_pos hsize]
  split <;> rfl

/-- A displacement of four bytes in any other. -/
theorem errorOf?_longOffset (hsize : i.size ≠ 3) (target : Nat) :
    errorOf? (longOffset position target) =
      if i.Fits (distance position target) then none else some (.located position .offsetOverflow) := by
  simp only [longOffset, Fits, if_neg hsize]
  split <;> rfl

theorem blame?_eq {target : Nat} {α : Type} {offset : Nat → Except VerifyError α}
    (hoffset : ∀ u, errorOf? (offset u) =
      if i.Fits (distance position u) then none else some (.located position .offsetOverflow)) :
    errorOf? (place target >>= offset) = i.blame? position place target := by
  unfold blame?
  cases place target with
  | error e => rfl
  | ok u =>
    show errorOf? (offset u) = errorOf? (if i.Fits (distance position u) then pure () else .error _)
    rw [hoffset]
    split <;> rfl

theorem errorOf?_switchDistance (hsize : i.size ≠ 3) (target : Nat) :
    errorOf? (switchDistance place position target) = i.blame? position place target := by
  unfold switchDistance
  refine blame?_eq fun u => ?_
  rw [errorOf?_ofExcept]
  exact errorOf?_longOffset hsize u

theorem errorOf?_relocatedCases (hsize : i.size ≠ 3) (cases : Cases) :
    errorOf? (relocatedCases place position cases) = cases.targets.findSome? (i.blame? position place) := by
  cases cases with
  | table low targets =>
    unfold relocatedCases
    rw [errorOf?_bind_pure, errorOf?_mapM]
    exact congrArg (targets.findSome? ·) (funext (errorOf?_switchDistance hsize))
  | lookup pairs =>
    unfold relocatedCases
    rw [errorOf?_bind_pure, errorOf?_mapM, Cases.targets, List.findSome?_map]
    refine congrArg (pairs.findSome? ·) (funext fun pair => ?_)
    rw [errorOf?_bind_pure]
    exact errorOf?_switchDistance hsize pair.2

section Decoded

variable {length : Nat} {bytes : List UInt8}

theorem Decodes.select_size {default : Nat} {cases : Cases} (h : Decodes length i.position bytes i)
    (hflow : i.flow = .select default cases) :
    i.size = 1 + Opcode.switchPadding i.position + 4 + cases.encodedSize := by
  obtain ⟨opcode, operands, rest, size, -, hopcode, hoperands, hshape⟩ := h.select_inv hflow
  have hsize : i.size = 1 + Opcode.switchPadding i.position + size := by rw [hshape]
  rw [hsize, Nat.add_assoc _ 4]
  congr 1
  rcases hopcode with rfl | rfl
  · obtain ⟨targets, rfl, -, -, rfl⟩ := tableBounds_of_switchOperands hoperands
    show 12 + 4 * targets.length = 4 + (8 + 4 * targets.length)
    omega
  · obtain ⟨pairs, rfl, -, rfl⟩ := pairCount_of_switchOperands hoperands
    show 8 + 8 * pairs.length = 4 + (4 + 8 * pairs.length)
    omega

/-- Moving an instruction fails for the first target with which something is wrong, and for no other reason. -/
theorem errorOf?_relocated (hi : Decodes length i.position bytes i) (hbranching : i.IsBranching) :
    errorOf? (i.relocated position place) = i.targets.findSome? (i.blame? position place) := by
  unfold relocated
  rcases hbranching with ⟨kind, target, hflow⟩ | ⟨default, cases, hflow⟩
  · have htargets : i.targets = [target] := by simp [targets, hflow]
    simp only [hflow]
    rw [htargets, List.findSome?_singleton]
    refine blame?_eq fun u => ?_
    obtain ⟨-, -, ⟨hshort, -, hsize⟩ | ⟨hopcode, -, hsize⟩⟩ := hi.branch_inv hflow
    · rw [if_neg hshort.ne_gotoW, errorOf?_bind_pure, errorOf?_ofExcept]
      exact errorOf?_shortOffset hsize u
    · rw [if_pos hopcode, errorOf?_bind_pure, errorOf?_ofExcept]
      exact errorOf?_longOffset (by omega) u
  · have htargets : i.targets = default :: cases.targets := by simp [targets, hflow]
    have hsize : i.size ≠ 3 := by
      rw [hi.select_size hflow]
      omega
    simp only [hflow]
    rw [htargets, errorOf?_bind fun d => errorOf?_bind_pure, errorOf?_switchDistance hsize,
      errorOf?_relocatedCases hsize, List.findSome?_cons]
    cases i.blame? position place default with
    | none => rfl
    | some e => rfl

/-! ## What is written -/

theorem length_relocatedCases {cases : Cases} (h : relocatedCases place position cases = .ok bytes) :
    bytes.length = cases.encodedSize := by
  cases cases with
  | table low targets =>
    obtain ⟨distances, hdistances, h⟩ := bind_eq_ok.mp h
    obtain rfl := pure_eq_ok.mp h
    rw [List.length_append, List.length_append, length_write_int32, length_write_int32, length_flatMap_write,
      ← (mapM_eq_ok.mp hdistances).length_eq]
    rfl
  | lookup pairs =>
    obtain ⟨entries, hentries, h⟩ := bind_eq_ok.mp h
    obtain rfl := pure_eq_ok.mp h
    have hall : List.Forall₂ (fun (p : Int32 × Nat) entry => ∃ d : Int32, entry = write p.1 ++ write d ∧
        switchDistance place position p.2 = .ok d) pairs entries := by
      refine (mapM_eq_ok.mp hentries).imp fun p entry hentry => ?_
      obtain ⟨d, hd, hentry⟩ := bind_eq_ok.mp hentry
      exact ⟨d, (pure_eq_ok.mp hentry).symm, hd⟩
    rw [List.length_append, length_write_int32, length_flatten_entries hall]
    rfl

/-- Wherever an instruction is moved to, as many bytes are written as it is to have there. -/
theorem length_relocated {piece : List UInt8} (hi : Decodes length i.position bytes i) (hbranching : i.IsBranching)
    (h : i.relocated position place = .ok piece) : piece.length = i.relocatedSize position := by
  unfold relocated at h
  unfold relocatedSize
  rcases hbranching with ⟨kind, target, hflow⟩ | ⟨default, cases, hflow⟩
  · simp only [hflow] at h ⊢
    obtain ⟨u, hu, h⟩ := bind_eq_ok.mp h
    obtain ⟨-, -, ⟨hshort, -, hsize⟩ | ⟨hopcode, -, hsize⟩⟩ := hi.branch_inv hflow
    · rw [if_neg hshort.ne_gotoW] at h
      obtain ⟨d, hd, h⟩ := bind_eq_ok.mp h
      rw [← pure_eq_ok.mp h, List.length_cons, length_write_int16, hsize]
    · rw [if_pos hopcode] at h
      obtain ⟨d, hd, h⟩ := bind_eq_ok.mp h
      rw [← pure_eq_ok.mp h, List.length_cons, length_write_int32, hsize]
  · simp only [hflow] at h ⊢
    obtain ⟨d, hd, h⟩ := bind_eq_ok.mp h
    obtain ⟨written, hwritten, h⟩ := bind_eq_ok.mp h
    rw [← pure_eq_ok.mp h, List.length_cons, List.length_append, List.length_append, List.length_replicate,
      length_write_int32, length_relocatedCases hwritten, hi.select_size hflow]
    omega

/-- What was written for an instruction decodes as the same instruction in its new place, in all code that is longer
than its new targets. -/
theorem decode_relocated {piece code : List UInt8} (hi : Decodes length i.position bytes i)
    (hbranching : i.IsBranching) (h : i.relocated position place = .ok piece) (hfits : code.length < 2 ^ 63)
    (hwritten : piece <+: code.drop position)
    (hplace : ∀ t ∈ i.targets, ∀ u, place t = .ok u → u < code.length) :
    ∃ flow, i.flow.Moved (fun t u => place t = .ok u) flow ∧
      decode code position = .ok ⟨position, i.relocatedSize position, i.opcode, i.wide, flow⟩ := by
  obtain ⟨rest, hrest⟩ := hwritten
  have hlength := length_relocated hi hbranching h
  have hwhole : piece.length + rest.length = code.length - position := by
    rw [← List.length_append, hrest, List.length_drop]
  have hpositive := hi.relocatedSize_pos position
  obtain ⟨flow, hmoved, hencodes⟩ := encodes_relocated hi (by omega)
    (fun t ht u hu => Nat.lt_trans (hplace t ht u hu) hfits) h
  refine ⟨flow, hmoved, decode_eq_ok.mpr ?_⟩
  rw [← hrest]
  refine hencodes.decodes _ _ (fun u hu => ?_) (show position + i.relocatedSize position ≤ _ by omega)
  obtain ⟨k, hk⟩ := List.mem_iff_getElem?.mp hu
  obtain ⟨t, ht, hplaced⟩ := forall₂_getElem? hmoved.forall₂_targets hk
  exact hplace t (List.mem_of_getElem? ht) u hplaced

end Decoded

/-- Moving a branch or switch and decoding undo each other.  It can be moved if and only if each target has a place
that a displacement can lead to, and otherwise fails for the first of the others.  As many bytes are written as the size
in the new place, and in code that is longer than the new targets they decode as the instruction in its new place, with
new targets.  Displacements are differences of positions below `2 ^ 63`. -/
theorem relocated_reads_back {code : List UInt8} {old : Nat} {x : Instruction} (hx : decode code old = .ok x)
    (hbranching : x.IsBranching) (position : Nat) (place : Nat → Except VerifyError Nat) :
    ((∃ piece, x.relocated position place = .ok piece) ↔ ∀ t ∈ x.targets, x.Leads position place t) ∧
    (∀ e, x.relocated position place = .error e →
      ∃ front t others, x.targets = front ++ t :: others ∧ (∀ s ∈ front, x.Leads position place s) ∧
        (place t = .error e ∨ ∃ u, place t = .ok u ∧ ¬ x.Fits (distance position u) ∧
          e = .located position .offsetOverflow)) ∧
    (∀ piece, x.relocated position place = .ok piece → piece.length = x.relocatedSize position ∧
      ∀ written : List UInt8, written.length < 2 ^ 63 → piece <+: written.drop position →
        (∀ t ∈ x.targets, ∀ u, place t = .ok u → u < written.length) →
        ∃ flow, x.flow.Moved (fun t u => place t = .ok u) flow ∧
          decode written position = .ok ⟨position, x.relocatedSize position, x.opcode, x.wide, flow⟩) ∧
    (position < 2 ^ 63 → ∀ u < 2 ^ 63, distance position u = (u : Int) - position) := by
  have hdecodes := decode_eq_ok.mp hx
  obtain rfl := hdecodes.position_eq
  have herror := @errorOf?_relocated _ position place _ _ hdecodes hbranching
  refine ⟨?_, ?_, ?_, fun hposition u hu => distance_eq_sub hposition hu⟩
  · rw [← errorOf?_eq_none, herror, List.findSome?_eq_none_iff]
    simp only [blame?_eq_none]
  · intro e he
    rw [← errorOf?_eq_some, herror, List.findSome?_eq_some_iff] at he
    obtain ⟨front, t, others, htargets, hblame, hfront⟩ := he
    exact ⟨front, t, others, htargets, fun s hs => blame?_eq_none.mp (hfront s hs), blame?_eq_some.mp hblame⟩
  · intro piece hpiece
    exact ⟨length_relocated hdecodes hbranching hpiece, fun written hfits hwritten hplace =>
      decode_relocated hdecodes hbranching hpiece hfits hwritten hplace⟩

/-- A lookup with one key, at the start of the code. -/
def oneKey : Instruction :=
  ⟨0, 20, Opcode.lookupswitch, false, .select 20 (.lookup [(7, 21)])⟩

/-- Everything four bytes further on. -/
def fourOn (position : Nat) : Except VerifyError Nat :=
  .ok (position + 4)

/-- At position 5 the lookup has one byte of padding less, so what stands behind it moves by 4. -/
theorem relocated_reads_back_oneKey :
    ∃ piece, oneKey.relocated 5 fourOn = .ok piece ∧ piece.length = 19 ∧
      ∃ flow, oneKey.flow.Moved (fun t u => fourOn t = .ok u) flow ∧
        decode ([0, 0, 0, 0, 0] ++ piece ++ [0xb1, 0xb1]) 5 = .ok ⟨5, 19, Opcode.lookupswitch, false, flow⟩ := by
  have hdecode : decode [0xab, 0, 0, 0, 0, 0, 0, 20, 0, 0, 0, 1, 0, 0, 0, 7, 0, 0, 0, 21, 0xb1, 0xb1] 0 =
      .ok oneKey := by rfl
  obtain ⟨hmoves, -, hread, -⟩ := relocated_reads_back hdecode (.inr ⟨_, _, rfl⟩) 5 fourOn
  have hleads : ∀ t ∈ oneKey.targets, oneKey.Fits (distance 5 (t + 4)) := by decide
  obtain ⟨piece, hpiece⟩ := hmoves.mpr fun t ht => ⟨t + 4, rfl, hleads t ht⟩
  obtain ⟨hlength, hback⟩ := hread piece hpiece
  have hwhole : ([0, 0, 0, 0, 0] ++ piece ++ [0xb1, 0xb1]).length = 26 := by
    rw [List.length_append, List.length_append, hlength]
    rfl
  refine ⟨piece, hpiece, hlength, hback _ (by rw [hwhole]; decide) ⟨[0xb1, 0xb1], rfl⟩ fun t ht u hu => ?_⟩
  obtain rfl := Except.ok.inj hu
  rw [hwhole]
  revert t
  decide

/-- A displacement of words can wrap around: from the last word to `0` it is `1`, and a `goto` that could not hold the
difference of the positions is moved nevertheless. -/
theorem wrapped_displacement :
    ¬ ∀ (code : List UInt8) (old : Nat) (x : Instruction), decode code old = .ok x → x.IsBranching →
      ∀ position < 2 ^ 64, ∀ place : Nat → Except VerifyError Nat, (∀ t u, place t = .ok u → u < 2 ^ 64) →
        ((∃ piece, x.relocated position place = .ok piece) ↔
          ∀ t ∈ x.targets, ∃ u, place t = .ok u ∧ x.Fits ((u : Int) - position)) := by
  intro h
  have hdecode : decode [0xa7, 0, 3, 0xb1] 0 = .ok ⟨0, 3, 0xa7, false, .branch .goto 3⟩ := by rfl
  have hmoves := h _ _ _ hdecode (.inl ⟨_, _, rfl⟩) (2 ^ 64 - 1) (by decide) (fun _ => .ok 0) (by
    intro t u hu
    obtain rfl := Except.ok.inj hu
    decide)
  obtain ⟨u, hu, hfits⟩ := hmoves.mp ⟨[0xa7, 0, 1], by rfl⟩ 3 (List.mem_cons_self ..)
  obtain rfl := Except.ok.inj hu
  revert hfits
  decide

end Instruction

end Bytecode
