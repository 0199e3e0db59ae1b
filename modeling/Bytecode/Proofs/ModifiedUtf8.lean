import Bytecode.Binary.ModifiedUtf8
import Mathlib.Tactic.Common

/-!
# Text survives its encoding

A text is written unit by unit, and both readers take the parts off in the order in which they were written.

* `ModifiedUtf8.UnitForm`: the bytes that are read as a unit, which are not only those that are written for it;
* `ModifiedUtf8.decode?_eq_some_iff`: a text is read exactly from forms of its units, one behind the other;
* `ModifiedUtf8.decode?_encode`: a text that was written is read back;
* `ModifiedUtf8.length_encode_le`: bytes from which a text was read are no fewer than those it is written in, since a
  unit that took more bytes than it needs is written in fewer;
* `ModifiedUtf8.decodeWithin?_eq`: reading by index, with accesses that fail outside of the bytes, ends with the same
  answer.
-/

namespace Bytecode.ModifiedUtf8

/-! ## Units -/

theorem isValidChar_toNat (c : Char) : c.toNat < 0xD800 ∨ 0xDFFF < c.toNat ∧ c.toNat < 0x110000 := c.valid

theorem unit_lt {c : Char} {unit : Nat} (h : unit ∈ units c) : unit < 0x10000 := by
  have hc := isValidChar_toNat c
  unfold units at h
  split at h
  · rename_i hbasic
    rw [List.mem_singleton.mp h]
    exact hbasic
  · simp only [List.mem_cons, List.not_mem_nil, or_false] at h
    omega

/-- The bytes that are read as a unit: one, two or three of them, whether or not so many are needed. -/
inductive UnitForm : Nat → List UInt8 → Prop
  | one {a : UInt8} (hlead : 0 < a.toNat ∧ a.toNat < 0x80) : UnitForm a.toNat [a]
  | two {a b : UInt8} {low : Nat} (hlead : 0xC0 ≤ a.toNat ∧ a.toNat < 0xE0) (hlow : continuation? b = some low) :
      UnitForm ((a.toNat - 0xC0) * 64 + low) [a, b]
  | three {a b c : UInt8} {middle low : Nat} (hlead : 0xE0 ≤ a.toNat ∧ a.toNat < 0xF0)
      (hmiddle : continuation? b = some middle) (hlow : continuation? c = some low) :
      UnitForm ((a.toNat - 0xE0) * 4096 + middle * 64 + low) [a, b, c]

theorem continuation?_eq_some {b : UInt8} {bits : Nat} :
    continuation? b = some bits ↔ b.toNat = 0x80 + bits ∧ bits < 64 := by
  unfold continuation?
  split
  · rw [Option.some_inj]
    omega
  · simp only [reduceCtorEq, false_iff]
    omega

theorem toNat_byte {n : Nat} (h : n < 256) : (UInt8.ofNat n).toNat = n := UInt8.toNat_ofNat_of_lt' h

/-- A byte that continues a unit. -/
theorem continuation?_ofNat {bits : Nat} (h : bits < 64) :
    continuation? (UInt8.ofNat (0x80 + bits)) = some bits :=
  continuation?_eq_some.mpr ⟨toNat_byte (by omega), h⟩

/-- What is written for a unit is a form of it. -/
theorem unitForm_encodeUnit {unit : Nat} (h : unit < 0x10000) : UnitForm unit (encodeUnit unit) := by
  unfold encodeUnit
  split
  · rename_i hshort
    have hlead : (UInt8.ofNat unit).toNat = unit := toNat_byte (by omega)
    have hform := UnitForm.one (a := UInt8.ofNat unit) (by omega)
    rwa [hlead] at hform
  · split
    · have hlead : (UInt8.ofNat (0xC0 + unit / 64)).toNat = 0xC0 + unit / 64 := toNat_byte (by omega)
      have hform := UnitForm.two (by omega) (continuation?_ofNat (Nat.mod_lt unit (by decide : 64 > 0)))
        (a := UInt8.ofNat (0xC0 + unit / 64))
      rwa [hlead, show (0xC0 + unit / 64 - 0xC0) * 64 + unit % 64 = unit by omega] at hform
    · have hlead : (UInt8.ofNat (0xE0 + unit / 4096)).toNat = 0xE0 + unit / 4096 := toNat_byte (by omega)
      have hform := UnitForm.three (by omega) (continuation?_ofNat (Nat.mod_lt (unit / 64) (by decide : 64 > 0)))
        (continuation?_ofNat (Nat.mod_lt unit (by decide : 64 > 0))) (a := UInt8.ofNat (0xE0 + unit / 4096))
      rwa [hlead, show (0xE0 + unit / 4096 - 0xE0) * 4096 + unit / 64 % 64 * 64 + unit % 64 = unit by omega] at hform

theorem length_encodeUnit_le (unit : Nat) : (encodeUnit unit).length ≤ 3 := by
  unfold encodeUnit
  split
  · simp
  · split <;> simp

namespace UnitForm

variable {unit : Nat} {bytes : List UInt8}

theorem unit_lt (h : UnitForm unit bytes) : unit < 0x10000 := by
  cases h with
  | one hlead => omega
  | two hlead hlow =>
    have hbits := continuation?_eq_some.mp hlow
    omega
  | three hlead hmiddle hlow =>
    have hbits := continuation?_eq_some.mp hlow
    have hbits' := continuation?_eq_some.mp hmiddle
    omega

/-- No form has a byte that is zero, or one that starts four bytes. -/
theorem byte_range (h : UnitForm unit bytes) : ∀ b ∈ bytes, b ≠ 0 ∧ b.toNat < 0xF0 := by
  have hrange : ∀ b : UInt8, 0 < b.toNat → b.toNat < 0xF0 → b ≠ 0 ∧ b.toNat < 0xF0 := by
    intro b hpos hlt
    refine ⟨?_, hlt⟩
    rintro rfl
    exact absurd hpos (by decide)
  have hcontinuation : ∀ {b : UInt8} {bits : Nat}, continuation? b = some bits → b ≠ 0 ∧ b.toNat < 0xF0 := by
    intro b bits hbits
    obtain ⟨hvalue, hlt⟩ := continuation?_eq_some.mp hbits
    exact hrange b (by omega) (by omega)
  cases h with
  | one hlead => simpa using hrange _ hlead.1 (by omega)
  | two hlead hlow => simpa using ⟨hrange _ (by omega) (by omega), hcontinuation hlow⟩
  | three hlead hmiddle hlow =>
    simpa using ⟨hrange _ (by omega) hlead.2, hcontinuation hmiddle, hcontinuation hlow⟩

/-- A unit is written in no more bytes than any form of it has. -/
theorem length_le (h : UnitForm unit bytes) : (encodeUnit unit).length ≤ bytes.length := by
  cases h with
  | one hlead =>
    rw [encodeUnit, if_pos (by omega)]
    simp
  | two hlead hlow =>
    have hbits := continuation?_eq_some.mp hlow
    unfold encodeUnit
    split
    · simp
    · rw [if_pos (by omega)]
      simp
  | three hlead hmiddle hlow => exact length_encodeUnit_le _

/-- A form in front is read as its unit. -/
theorem unitsOnto_append (h : UnitForm unit bytes) (front : List Nat) (rest : List UInt8) :
    unitsOnto front (bytes ++ rest) = unitsOnto (unit :: front) rest := by
  cases h with
  | one hlead =>
    rw [List.singleton_append, unitsOnto.eq_def]
    simp only [hlead, and_self, if_true]
  | two hlead hlow =>
    rw [List.cons_append, List.singleton_append, unitsOnto.eq_def]
    simp only [hlow]
    rw [if_neg (by omega), if_pos hlead]
  | three hlead hmiddle hlow =>
    rw [List.cons_append, List.cons_append, List.singleton_append, unitsOnto.eq_def]
    simp only [hmiddle, hlow]
    rw [if_neg (by omega), if_neg (by omega), if_pos hlead]

end UnitForm

/-- Forms of units, one behind the other. -/
inductive Forms : List Nat → List UInt8 → Prop
  | nil : Forms [] []
  | cons {unit : Nat} {us : List Nat} {bytes rest : List UInt8} (hunit : UnitForm unit bytes) (hrest : Forms us rest) :
      Forms (unit :: us) (bytes ++ rest)

theorem forms_flatMap {us : List Nat} (h : ∀ unit ∈ us, unit < 0x10000) : Forms us (us.flatMap encodeUnit) := by
  induction us with
  | nil => exact .nil
  | cons unit us ih =>
    obtain ⟨hunit, hus⟩ := List.forall_mem_cons.mp h
    exact .cons (unitForm_encodeUnit hunit) (ih hus)

namespace Forms

variable {us : List Nat} {bytes : List UInt8}

theorem unit_lt (h : Forms us bytes) : ∀ unit ∈ us, unit < 0x10000 := by
  induction h with
  | nil => simp
  | cons hunit hrest ih => exact List.forall_mem_cons.mpr ⟨hunit.unit_lt, ih⟩

theorem byte_range (h : Forms us bytes) : ∀ b ∈ bytes, b ≠ 0 ∧ b.toNat < 0xF0 := by
  induction h with
  | nil => simp
  | cons hunit hrest ih => exact List.forall_mem_append.mpr ⟨hunit.byte_range, ih⟩

theorem length_le (h : Forms us bytes) : (us.flatMap encodeUnit).length ≤ bytes.length := by
  induction h with
  | nil => simp
  | cons hunit hrest ih =>
    rw [List.flatMap_cons, List.length_append, List.length_append]
    exact Nat.add_le_add hunit.length_le ih

end Forms

/-- Units are read exactly from their forms. -/
theorem unitsOnto_eq_some_iff {front us : List Nat} {bytes : List UInt8} :
    unitsOnto front bytes = some us ↔ ∃ new, us = front.reverse ++ new ∧ Forms new bytes := by
  constructor
  · intro h
    -- one more form in front of those that are read from the rest
    have hcons : ∀ {unit : Nat} {front : List Nat} {form rest : List UInt8}, UnitForm unit form →
        (∃ new, us = (unit :: front).reverse ++ new ∧ Forms new rest) →
        ∃ new, us = front.reverse ++ new ∧ Forms new (form ++ rest) := by
      rintro unit front form rest hunit ⟨new, rfl, hnew⟩
      exact ⟨unit :: new, by simp, .cons hunit hnew⟩
    fun_induction unitsOnto front bytes with
    | case1 front =>
      obtain rfl := Option.some.inj h
      exact ⟨[], by simp, .nil⟩
    | case2 front a rest hone ih => exact hcons (.one hone) (ih h)
    | case3 front a _ htwo b rest low hlow ih => exact hcons (.two htwo hlow) (ih h)
    | case4 => simp at h
    | case5 => simp at h
    | case6 front a _ _ hthree b c rest middle low hlow hmiddle ih =>
      exact hcons (.three hthree hmiddle hlow) (ih h)
    | case7 => simp at h
    | case8 => simp at h
    | case9 => simp at h
  · rintro ⟨new, rfl, hforms⟩
    induction hforms generalizing front with
    | nil => simp [unitsOnto]
    | cons hunit hrest ih =>
      rw [hunit.unitsOnto_append, ih]
      simp

/-! ## Characters -/

/-- A character that was taken apart is put together again. -/
theorem charsOnto_units (c : Char) (front : List Char) (rest : List Nat) :
    charsOnto front (units c ++ rest) = charsOnto (c :: front) rest := by
  have hc := isValidChar_toNat c
  unfold units
  split
  · rename_i hbasic
    have hhigh : isHighSurrogate c.toNat = false := by
      simp [isHighSurrogate]
      omega
    have hlow : isLowSurrogate c.toNat = false := by
      simp [isLowSurrogate]
      omega
    rw [List.singleton_append, charsOnto.eq_def]
    simp [hhigh, hlow]
  · have hhigh : isHighSurrogate (0xD800 + (c.toNat - 0x10000) / 1024) = true := by
      simp [isHighSurrogate]
      omega
    have hlow : isLowSurrogate (0xDC00 + (c.toNat - 0x10000) % 1024) = true := by
      simp [isLowSurrogate]
      omega
    have hvalue : 0x10000 + (0xD800 + (c.toNat - 0x10000) / 1024 - 0xD800) * 1024 +
        (0xDC00 + (c.toNat - 0x10000) % 1024 - 0xDC00) = c.toNat := by
      omega
    rw [List.cons_append, List.singleton_append, charsOnto.eq_def]
    simp only [hhigh, hlow, if_true, hvalue, Char.ofNat_toNat]

theorem charsOnto_flatMap (cs : List Char) (front : List Char) :
    charsOnto front (cs.flatMap units) = some (front.reverse ++ cs) := by
  induction cs generalizing front with
  | nil => simp [charsOnto]
  | cons c cs ih =>
    rw [List.flatMap_cons, charsOnto_units, ih]
    simp

theorem toNat_ofNat {n : Nat} (h : n < 0xD800 ∨ 0xDFFF < n ∧ n < 0x110000) : (Char.ofNat n).toNat = n := by
  rw [Char.ofNat, dif_pos h]
  rfl

/-- Characters that were put together are taken apart into the same units. -/
theorem chars_of_charsOnto {front cs : List Char} {us : List Nat} (hunits : ∀ unit ∈ us, unit < 0x10000)
    (h : charsOnto front us = some cs) : ∃ new, cs = front.reverse ++ new ∧ new.flatMap units = us := by
  fun_induction charsOnto front us with
  | case1 front =>
    obtain rfl := Option.some.inj h
    exact ⟨[], by simp, by simp⟩
  | case2 front high hhigh low rest hlow ih =>
    obtain ⟨new, rfl, hnew⟩ := ih (fun unit hunit => hunits unit (by simp [hunit])) h
    simp only [isHighSurrogate, isLowSurrogate, Bool.and_eq_true, decide_eq_true_eq] at hhigh hlow
    refine ⟨Char.ofNat (0x10000 + (high - 0xD800) * 1024 + (low - 0xDC00)) :: new, by simp, ?_⟩
    rw [List.flatMap_cons, hnew, units, toNat_ofNat (by omega), if_neg (by omega)]
    simp only [List.cons_append, List.nil_append, List.cons.injEq, and_true]
    omega
  | case3 => simp at h
  | case4 => simp at h
  | case5 => simp at h
  | case6 front unit rest hhigh hlow ih =>
    have hunit := hunits unit List.mem_cons_self
    obtain ⟨new, rfl, hnew⟩ := ih (fun unit hunit => hunits unit (by simp [hunit])) h
    simp only [isHighSurrogate, isLowSurrogate, Bool.and_eq_true, decide_eq_true_eq] at hhigh hlow
    refine ⟨Char.ofNat unit :: new, by simp, ?_⟩
    rw [List.flatMap_cons, hnew, units, toNat_ofNat (by omega), if_pos hunit, List.singleton_append]

/-! ## Texts -/

theorem encode_eq (text : String) : encode text = (text.toList.flatMap units).flatMap encodeUnit := by
  rw [encode, List.flatMap_assoc]

/-- A text is read exactly from the forms of its units. -/
theorem decode?_eq_some_iff {bytes : List UInt8} {text : String} :
    decode? bytes = some text ↔ Forms (text.toList.flatMap units) bytes := by
  constructor
  · intro h
    obtain ⟨us, hus, h⟩ := Option.bind_eq_some_iff.mp h
    obtain ⟨cs, hcs, h⟩ := Option.bind_eq_some_iff.mp h
    obtain rfl := Option.some.inj h
    obtain ⟨us, rfl, hforms⟩ := unitsOnto_eq_some_iff.mp hus
    obtain ⟨cs, rfl, rfl⟩ := chars_of_charsOnto hforms.unit_lt hcs
    rw [String.toList_ofList]
    exact hforms
  · intro h
    rw [decode?, unitsOnto_eq_some_iff.mpr ⟨_, rfl, h⟩]
    simp [charsOnto_flatMap]

theorem forms_encode (text : String) : Forms (text.toList.flatMap units) (encode text) := by
  rw [encode_eq]
  refine forms_flatMap fun unit hunit => ?_
  obtain ⟨c, -, hc⟩ := List.mem_flatMap.mp hunit
  exact unit_lt hc

/-- A text that was written is read back. -/
theorem decode?_encode (text : String) : decode? (encode text) = some text :=
  decode?_eq_some_iff.mpr (forms_encode text)

/-- A text is written in no more bytes than it was read from. -/
theorem length_encode_le {bytes : List UInt8} {text : String} (h : decode? bytes = some text) :
    (encode text).length ≤ bytes.length := by
  rw [encode_eq]
  exact (decode?_eq_some_iff.mp h).length_le

/-! ## Accesses inside the bytes -/

/-- The six bits of the byte at an index, if there is one and it continues a unit. -/
def continuationAt? (bytes : List UInt8) (index : Nat) : Option Nat := bytes[index]?.bind continuation?

/-- Read units from an index on, onto those already read.  There is no answer at all if the first byte of a unit is
looked for outside of the bytes; that bytes are missing or wrong is an answer. -/
def unitsWithin? (bytes : List UInt8) (front : List Nat) (index : Nat) : Option (Option (List Nat)) :=
  if index < bytes.length then
    match bytes[index]? with
    | none => none
    | some a =>
      if 0 < a.toNat ∧ a.toNat < 0x80 then unitsWithin? bytes (a.toNat :: front) (index + 1)
      else if 0xC0 ≤ a.toNat ∧ a.toNat < 0xE0 then
        match continuationAt? bytes (index + 1) with
        | some low => unitsWithin? bytes (((a.toNat - 0xC0) * 64 + low) :: front) (index + 2)
        | none => some none
      else if 0xE0 ≤ a.toNat ∧ a.toNat < 0xF0 then
        match continuationAt? bytes (index + 1), continuationAt? bytes (index + 2) with
        | some middle, some low =>
          unitsWithin? bytes (((a.toNat - 0xE0) * 4096 + middle * 64 + low) :: front) (index + 3)
        | _, _ => some none
      else some none
  else some (some front.reverse)
termination_by bytes.length - index

/-- The text that some bytes encode, read by index. -/
def decodeWithin? (bytes : List UInt8) : Option (Option String) :=
  (unitsWithin? bytes [] 0).map fun units => units.bind fun units => (charsOnto [] units).map String.ofList

/-- What is left of the bytes is what is read at an index and behind it. -/
theorem left_cons {bytes rest : List UInt8} {index : Nat} {a : UInt8} (hrest : a :: rest = bytes.drop index) :
    index < bytes.length ∧ bytes[index]? = some a ∧
      (∀ k, continuationAt? bytes (index + (k + 1)) = rest[k]?.bind continuation?) ∧
      ∀ k, bytes.drop (index + (k + 1)) = rest.drop k := by
  have hget : ∀ k, bytes[index + k]? = (a :: rest)[k]? := by
    intro k
    rw [hrest, List.getElem?_drop]
  have hfirst : bytes[index]? = some a := hget 0
  refine ⟨(List.getElem?_eq_some_iff.mp hfirst).1, hfirst, fun k => ?_, fun k => ?_⟩
  · rw [continuationAt?, hget, List.getElem?_cons_succ]
  · rw [← List.drop_drop, ← hrest, List.drop_succ_cons]

/-- The loop by index goes through like the one over what is left of the bytes. -/
theorem unitsWithin?_eq {bytes rest : List UInt8} {front : List Nat} {index : Nat} (hrest : rest = bytes.drop index) :
    unitsWithin? bytes front index = some (unitsOnto front rest) := by
  fun_induction unitsOnto front rest generalizing index with
  | case1 front =>
    have hend := List.drop_eq_nil_iff.mp hrest.symm
    rw [unitsWithin?, if_neg (Nat.not_lt.mpr hend)]
  | case2 front a rest hone ih =>
    obtain ⟨hlt, hfirst, -, hdrop⟩ := left_cons hrest
    rw [unitsWithin?, if_pos hlt, hfirst, ← ih (hdrop 0).symm]
    simp only [if_pos hone]
  | case3 front a hone htwo b rest low hlow ih =>
    obtain ⟨hlt, hfirst, hcontinued, hdrop⟩ := left_cons hrest
    have hlow : continuationAt? bytes (index + 1) = some low := (hcontinued 0).trans hlow
    rw [unitsWithin?, if_pos hlt, hfirst, ← ih (hdrop 1).symm]
    simp only [if_neg hone, if_pos htwo, hlow]
  | case4 front a hone htwo b rest hlow =>
    obtain ⟨hlt, hfirst, hcontinued, -⟩ := left_cons hrest
    have hlow : continuationAt? bytes (index + 1) = none := (hcontinued 0).trans hlow
    rw [unitsWithin?, if_pos hlt, hfirst]
    simp only [if_neg hone, if_pos htwo, hlow]
  | case5 front a hone htwo =>
    obtain ⟨hlt, hfirst, hcontinued, -⟩ := left_cons hrest
    have hlow : continuationAt? bytes (index + 1) = none := hcontinued 0
    rw [unitsWithin?, if_pos hlt, hfirst]
    simp only [if_neg hone, if_pos htwo, hlow]
  | case6 front a hone htwo hthree b c rest middle low hlow hmiddle ih =>
    obtain ⟨hlt, hfirst, hcontinued, hdrop⟩ := left_cons hrest
    have hmiddle : continuationAt? bytes (index + 1) = some middle := (hcontinued 0).trans hmiddle
    have hlow : continuationAt? bytes (index + 2) = some low := (hcontinued 1).trans hlow
    rw [unitsWithin?, if_pos hlt, hfirst, ← ih (hdrop 2).symm]
    simp only [if_neg hone, if_neg htwo, if_pos hthree, hmiddle, hlow]
  | case7 front a hone htwo hthree b c rest hnone =>
    obtain ⟨hlt, hfirst, hcontinued, -⟩ := left_cons hrest
    rw [unitsWithin?, if_pos hlt, hfirst]
    simp only [if_neg hone, if_neg htwo, if_pos hthree]
    split
    · rename_i middle low hmiddle hlow
      exact (hnone middle low ((hcontinued 0).symm.trans hmiddle) ((hcontinued 1).symm.trans hlow)).elim
    · rfl
  | case8 front a rest hone htwo hthree hshort =>
    obtain ⟨hlt, hfirst, hcontinued, -⟩ := left_cons hrest
    have hlow : continuationAt? bytes (index + 2) = none := by
      rcases rest with _ | ⟨b, _ | ⟨c, rest⟩⟩
      · exact hcontinued 1
      · exact hcontinued 1
      · exact (hshort b c rest rfl).elim
    rw [unitsWithin?, if_pos hlt, hfirst]
    simp only [if_neg hone, if_neg htwo, if_pos hthree, hlow]
    cases continuationAt? bytes (index + 1) <;> rfl
  | case9 front a rest hone htwo hthree =>
    obtain ⟨hlt, hfirst, -⟩ := left_cons hrest
    rw [unitsWithin?, if_pos hlt, hfirst]
    simp only [if_neg hone, if_neg htwo, if_neg hthree]

/-- Every byte that is read is there, and reading ends. -/
theorem decodeWithin?_eq (bytes : List UInt8) : decodeWithin? bytes = some (decode? bytes) := by
  unfold decodeWithin?
  rw [unitsWithin?_eq rfl, List.drop_zero, decode?]
  cases unitsOnto [] bytes with
  | none => rfl
  | some us => cases hcs : charsOnto [] us <;> simp [hcs]

/-- A text that was written is read back, from bytes of which none is zero or starts four.  From any bytes, reading
ends without leaving them, and reads a text from the forms of its units alone; writing that text again takes no more
bytes and keeps it. -/
theorem decoding_undoes_encoding :
    (∀ text, decode? (encode text) = some text ∧ ∀ b ∈ encode text, b ≠ 0 ∧ b.toNat < 0xF0) ∧
      ∀ bytes, decodeWithin? bytes = some (decode? bytes) ∧
        ∀ text, (decode? bytes = some text ↔ Forms (text.toList.flatMap units) bytes) ∧
          (decode? bytes = some text →
            decode? (encode text) = some text ∧ (encode text).length ≤ bytes.length) := by
  refine ⟨fun text => ⟨decode?_encode text, (forms_encode text).byte_range⟩, fun bytes => ?_⟩
  refine ⟨decodeWithin?_eq bytes, fun text => ⟨decode?_eq_some_iff, fun h => ?_⟩⟩
  exact ⟨decode?_encode text, length_encode_le h⟩

end Bytecode.ModifiedUtf8
