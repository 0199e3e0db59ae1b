import Bytecode.Proofs.ClassConversion
import Bytecode.Proofs.InliningOutcome
import Bytecode.Proofs.RoundTrip

/-!
# Which classes can be read back

Counts and lengths are cut off when they are written, so a class that is past the limits of the format is not read
back.  What was read is within the limits, with one exception: a wide constant can end the pool right past the last
number, since reading stops when all numbers below the count are taken.

* `Reader.Gives`: a property of all values that a reader gives;
* `Code.decode_write_iff`, `ClassFile.ofBytes_toBytes_iff`: bodies and classes are read back if and only if they fit;
* `ClassFile.fits_of_ofBytes`: of a class that was read, only the end of the pool is to be checked;
* `converted_read_back_iff`: which classes are read back after they were converted.  Copies of code multiply the
  entries of tables, and their counts are not checked.
-/

namespace Bytecode

variable {α β : Type}

/-- A property of all values that a reader gives. -/
def Reader.Gives (reader : Reader α) (P : α → Prop) : Prop :=
  ∀ ⦃input : List UInt8⦄ ⦃a : α⦄ ⦃rest : List UInt8⦄, reader input = .ok (a, rest) → P a

namespace Reader.Gives

theorem any (reader : Reader α) : reader.Gives fun _ => True := fun _ _ _ _ => trivial

theorem pure {P : α → Prop} {a : α} (h : P a) : (Pure.pure a : Reader α).Gives P := by
  intro input b rest hread
  obtain ⟨rfl, -⟩ := Prod.mk.inj (state_pure_eq_ok.mp hread)
  exact h

theorem bind {reader : Reader α} {next : α → Reader β} {P : α → Prop} {Q : β → Prop} (h : reader.Gives P)
    (hnext : ∀ a, P a → (next a).Gives Q) : (reader >>= next).Gives Q := by
  intro input b rest hread
  obtain ⟨a, input', ha, hb⟩ := state_bind_eq_ok.mp hread
  exact hnext a (h ha) hb

/-- A part of which nothing has to be known. -/
theorem skip {reader : Reader α} {next : α → Reader β} {Q : β → Prop} (hnext : ∀ a, (next a).Gives Q) :
    (reader >>= next).Gives Q :=
  (any reader).bind fun a _ => hnext a

theorem throw (e : FormatError) (P : α → Prop) : (MonadExcept.throw e : Reader α).Gives P := by
  intro input a rest hread
  exact (state_throw_ne_ok.mp hread).elim

end Reader.Gives

open Reader (Gives)

/-! ## What is read -/

theorem Binary.gives_sized (width : Nat) : (readSized width).Gives fun bytes => bytes.length < 256 ^ width :=
  fun _ _ _ h => length_lt_of_readSized h

theorem Binary.gives_manyOnto {one : Reader α} {P : α → Prop} (h : one.Gives P) (count : Nat) {front : List α}
    (hfront : ∀ a ∈ front, P a) :
    (manyOnto one count front).Gives fun values => values.length = front.length + count ∧ ∀ a ∈ values, P a := by
  induction count generalizing front with
  | zero => exact .pure ⟨by simp, by simpa using hfront⟩
  | succ count ih =>
    refine h.bind fun a ha => ?_
    intro input values rest hread
    obtain ⟨hlength, hall⟩ := ih (List.forall_mem_cons.mpr ⟨ha, hfront⟩) hread
    refine ⟨?_, hall⟩
    rw [hlength, List.length_cons]
    omega

/-- A sequence has no more elements than can be counted. -/
theorem Serial.gives_list [Serial α] {P : α → Prop} (h : (read : Reader α).Gives P) :
    (read : Reader (List α)).Gives fun values => values.length ≤ 65535 ∧ ∀ a ∈ values, P a := by
  refine .skip fun count => ?_
  have hcount := count.toNat_lt
  intro input values rest hread
  obtain ⟨hlength, hall⟩ := Binary.gives_manyOnto h count.toNat (by simp) hread
  refine ⟨?_, hall⟩
  rw [hlength, List.length_nil]
  omega

theorem Constant.gives_readText : readText.Gives fun text => (ModifiedUtf8.encode text).length ≤ 65535 := by
  refine (Binary.gives_sized 2).bind fun bytes hlength => ?_
  cases hdecode : ModifiedUtf8.decode? bytes with
  | none => exact .throw _ _
  | some text =>
    have hle := ModifiedUtf8.length_encode_le hdecode
    exact .pure (by omega)

theorem Constant.gives_readAt (index : UInt16) : (readAt index).Gives Constant.Fits := by
  refine .skip fun tag => ?_
  split
  · exact gives_readText.bind fun text htext => .pure htext
  all_goals first
    | exact .throw _ _
    | exact .skip fun _ => .pure trivial
    | exact .skip fun _ => .skip fun _ => .pure trivial

namespace ConstantPool

theorem wellFormed_empty : WellFormed (Tiling.empty 1) := ⟨rfl, ⟨rfl, rfl⟩, fun _ h => by cases h⟩

theorem WellFormed.push {constants : Tiling Constant} {constant : Constant} (h : WellFormed constants)
    (hstop : constants.stop < 65536) (hfits : constant.Fits) : WellFormed (constants.push constant) := by
  have hwidth := Constant.width_le constant
  refine ⟨h.start, ⟨?_, ?_⟩, ?_⟩
  · have htiles := h.laid.tiles
    rw [Tiling.items_push]
    show constants.push constant = (Tiling.empty constants.start).append (constants.items ++ [constant])
    rw [Tiling.append, List.foldl_append]
    exact congrArg (fun t => Tiling.push t constant) htiles
  · rw [Tiling.stop_push_of_lt constants constant (by omega), Tiling.items_push, h.laid.stop]
    show _ = constants.start + _
    simp [Nat.add_assoc]
  · rw [Tiling.items_push]
    intro other hother
    rcases List.mem_append.mp hother with hold | hnew
    · exact h.texts other hold
    · exact List.mem_singleton.mp hnew ▸ hfits

/-- A wide constant that is read last can take the number of the count. -/
theorem WellFormed.readUpTo {count : UInt16} {constants result : Tiling Constant} {input rest : List UInt8}
    (h : WellFormed constants) (hstop : constants.stop ≤ count.toNat + 1)
    (hread : readUpTo count constants input = .ok (result, rest)) :
    WellFormed result ∧ result.stop ≤ count.toNat + 1 := by
  have hcount := count.toNat_lt
  fun_induction ConstantPool.readUpTo count constants input with
  | case1 => simp at hread
  | case2 constants input hlt constant rest' hone ih =>
    have hwidth := Constant.width_le constant
    have hpush := Tiling.stop_push_of_lt constants constant (by omega)
    exact ih (h.push (by omega) (Constant.gives_readAt _ hone)) (by omega) hread
  | case3 =>
    obtain ⟨rfl, -⟩ := Prod.mk.inj (Except.ok.inj hread)
    exact ⟨h, hstop⟩

theorem gives_read : (read : Reader ConstantPool).Gives fun pool =>
    WellFormed pool.constants ∧ pool.constants.stop ≤ 65536 := by
  refine .skip fun count => ?_
  have hcount := count.toNat_lt
  refine Gives.bind (P := fun constants => WellFormed constants ∧ constants.stop ≤ 65536) ?_ fun constants h => .pure h
  intro input constants rest hread
  obtain ⟨hformed, hstop⟩ := wellFormed_empty.readUpTo (Nat.le_add_left 1 count.toNat) hread
  exact ⟨hformed, by omega⟩

end ConstantPool

theorem Attribute.gives_read : (read : Reader Attribute).Gives Attribute.Fits :=
  .skip fun _ => (Binary.gives_sized 4).bind fun _ hlength => .pure hlength

theorem Attributes.gives_read : (read : Reader (List Attribute)).Gives Attributes.Fit :=
  fun _ _ _ h => ⟨(Serial.gives_list Attribute.gives_read h).1, (Serial.gives_list Attribute.gives_read h).2⟩

theorem Member.gives_read : (read : Reader Member).Gives Member.Fits :=
  .skip fun _ => .skip fun _ => .skip fun _ => Attributes.gives_read.bind fun _ h => .pure h

theorem Members.gives_read : (read : Reader (List Member)).Gives Members.Fit :=
  fun _ _ _ h => ⟨(Serial.gives_list Member.gives_read h).1, (Serial.gives_list Member.gives_read h).2⟩

theorem Code.gives_read : (read : Reader Code).Gives Code.Fits := by
  refine .skip fun _ => .skip fun _ => (Binary.gives_sized 4).bind fun _ hbytes => ?_
  refine (Serial.gives_list (Gives.any _)).bind fun _ htable => Attributes.gives_read.bind fun _ hattributes => ?_
  exact .pure ⟨hbytes, htable.1, hattributes⟩

theorem ClassFile.gives_read : (read : Reader ClassFile).Gives fun c =>
    ConstantPool.WellFormed c.constants.constants ∧ c.constants.constants.stop ≤ 65536 ∧
      (c.constants.constants.stop ≤ 65535 → c.Fits) := by
  refine .skip fun found => ?_
  split
  · refine .bind (P := fun _ => False) (.throw _ _) (by simp)
  · refine .skip fun _ => .skip fun _ => ConstantPool.gives_read.bind fun pool hpool => ?_
    refine .skip fun _ => .skip fun _ => .skip fun _ => ?_
    refine (Serial.gives_list (Gives.any _)).bind fun _ hinterfaces => ?_
    refine Members.gives_read.bind fun _ hfields => Members.gives_read.bind fun _ hmethods => ?_
    refine Attributes.gives_read.bind fun _ hattributes => .pure ⟨hpool.1, hpool.2, fun hstop => ?_⟩
    exact ⟨⟨hpool.1, hstop⟩, hinterfaces.1, hfields, hmethods, hattributes⟩

/-- Of a class that was read, only the end of the pool can be past the limits. -/
theorem ClassFile.fits_of_ofBytes {bytes : List UInt8} {c : ClassFile} (h : ClassFile.ofBytes bytes = .ok c)
    (hstop : c.constants.constants.stop ≤ 65535) : c.Fits := by
  obtain ⟨⟨c', rest⟩, hread, rfl⟩ := map_eq_ok.mp h
  exact (ClassFile.gives_read hread).2.2 hstop

/-! ## What is read back -/

/-- A body is read back from what was written if it fits, and only then. -/
theorem Code.decode_write_iff {code : Code} (nameIndex : ConstantIndex) :
    Attribute.decode Code ⟨nameIndex, write code⟩ = .ok code ↔ code.Fits := by
  constructor
  · intro h
    exact Code.gives_read (Attribute.decode_eq_ok.mp h)
  · intro h
    have hread := h.readsBack []
    rw [List.append_nil] at hread
    exact Attribute.decode_eq_ok.mpr hread

/-- After its first part, a reader goes on behind what was written of it. -/
theorem Serial.ReadsBack.rest_of_bind [Serial α] {a : α} (h : Serial.ReadsBack a) {next : α → Reader β}
    {bytes : List UInt8} {r : β × List UInt8} (hread : (read >>= next) (write a ++ bytes) = .ok r) :
    next a bytes = .ok r := by
  obtain ⟨a', input, ha, hnext⟩ := state_bind_eq_ok.mp hread
  rw [h bytes] at ha
  obtain ⟨rfl, rfl⟩ := Prod.mk.inj (Except.ok.inj ha)
  exact hnext

/-- A pool that is read back leaves a number for the count. -/
theorem ConstantPool.stop_le_of_read {pool : ConstantPool} {bytes rest : List UInt8}
    (h : (read : Reader ConstantPool) (write pool ++ bytes) = .ok (pool, rest)) : pool.constants.stop ≤ 65535 := by
  have hle := (gives_read h).2
  have hrest := (Serial.readsBack_uint16 (UInt16.ofNat pool.constants.stop)).rest_of_bind
    (List.append_assoc _ _ bytes ▸ h)
  obtain ⟨constants, _, hread, hpool⟩ := state_bind_eq_ok.mp hrest
  obtain ⟨rfl, -⟩ := Prod.mk.inj (state_pure_eq_ok.mp hpool)
  -- were the end 65536, the count would be written as zero, and the pool that is read would end at one
  have hstop := (wellFormed_empty.readUpTo (Nat.le_add_left 1 _) hread).2
  rw [UInt16.toNat_ofNat'] at hstop
  dsimp only at hle hstop ⊢
  omega

/-- A class is read back from what was written if it fits, and only then. -/
theorem ClassFile.ofBytes_toBytes_iff {c : ClassFile} : ClassFile.ofBytes c.toBytes = .ok c ↔ c.Fits := by
  constructor
  · intro h
    obtain ⟨⟨c', rest⟩, hread, rfl⟩ := map_eq_ok.mp h
    obtain ⟨-, -, hfits⟩ := ClassFile.gives_read hread
    -- the parts in front of the pool read back in any case, so the pool is read from its own bytes
    rw [toBytes, write_eq] at hread
    have hread := (Serial.readsBack_uint32 magic).rest_of_bind hread
    rw [if_neg (by simp)] at hread
    have hread := (Serial.readsBack_uint16 c'.version.minor).rest_of_bind hread
    have hread := (Serial.readsBack_uint16 c'.version.major).rest_of_bind hread
    simp only [state_bind_eq_ok, state_pure_eq_ok] at hread
    obtain ⟨pool, _, hpool, _, _, -, _, _, -, _, _, -, _, _, -, _, _, -, _, _, -, _, _, -, hlast⟩ := hread
    obtain rfl : pool = c'.constants := congrArg ClassFile.constants (Prod.mk.inj hlast).1
    exact hfits (ConstantPool.stop_le_of_read hpool)
  · intro h
    have hread := h.readsBack []
    rw [List.append_nil] at hread
    exact map_eq_ok.mpr ⟨(c, []), hread, rfl⟩

/-! ## What is read back after the conversion -/

namespace Member

variable {m : Member} {pool : ConstantPool} {code new : Code}

/-- New code is read from a method again if it fits, and only then. -/
theorem code?_replaceCode_iff (hpool : ConstantPool.Numbered pool.constants) (hcode : m.code? pool = .ok (some code)) :
    ((m.replaceCode new).run pool).1.code? pool = .ok (some new) ↔ new.Fits := by
  obtain ⟨index, hfind⟩ := find?_replaceCode hpool hcode
  rw [code?_eq_some, ← Code.decode_write_iff index, hfind]
  simp

/-- A method with new code fits if the attribute with the code does. -/
theorem fits_replaceCode_iff (hcode : m.code? pool = .ok (some code)) (hfits : m.Fits) :
    ((m.replaceCode new).run pool).1.Fits ↔ (write new).length < 2 ^ 32 := by
  obtain ⟨place, index, hplace, -, hrun⟩ := replaceCode_of_code? hcode new
  rw [hrun]
  constructor
  · intro h
    have hlt : place < m.attributes.length := (List.findIdx?_eq_some_iff_getElem.mp hplace).1
    exact h.all ⟨index, write new⟩ (List.mem_set hlt _)
  · intro hlength
    refine ⟨by simpa using hfits.count, fun a ha => ?_⟩
    rcases List.mem_or_eq_of_mem_set ha with hold | rfl
    · exact hfits.all a hold
    · exact hlength

end Member

namespace Conversion

variable {settings : Settings} {policy : Policy} {recording : Bool} {c : ClassFile} {m : Member} {new : Code}

theorem fits_converted_iff (hfits : m.Fits) :
    (converted settings policy recording c m).Fits ↔
      ∀ new, newCode settings policy recording c m = .ok (some new) → (write new).length < 2 ^ 32 := by
  unfold converted
  split
  · rename_i new hnew
    obtain ⟨code, hcode⟩ := exists_code_of_newCode hnew
    rw [Member.fits_replaceCode_iff hcode hfits, hnew]
    simp
  · rename_i hnone
    exact ⟨fun _ new hnew => absurd hnew (hnone new), fun _ => hfits⟩

/-- Of new code, only tables can be too long. -/
theorem fits_newCode_iff (hpolicy : policy.checker? = none)
    (h : newCode settings policy recording c m = .ok (some new)) :
    new.Fits ↔ new.exceptionTable.length ≤ 65535 ∧ ∀ a ∈ new.attributes, a.Fits := by
  refine ⟨fun hfits => ⟨hfits.exceptionTable, hfits.attributes.all⟩, fun ⟨htable, hall⟩ => ?_⟩
  rcases newCode_cases hpolicy h with ⟨-, hnone⟩ | ⟨code, method, v, hcode, hmethod, hverify, hcases⟩
  · simp at hnone
  · obtain ⟨a, -, hdecode⟩ := Member.code?_eq_some.mp hcode
    have hold := Code.gives_read (Attribute.decode_eq_ok.mp hdecode)
    obtain rfl := Method.code_of_ofMember hmethod
    obtain ⟨setup, s, hsettled⟩ := Method.settled (Nat.lt_trans hold.bytes (by decide)) hverify
    rcases hcases with ⟨-, new', hinline, hsame⟩ | ⟨-, hnone⟩
    · obtain rfl := Option.some.inj hsame
      obtain ⟨-, -, hshort, -⟩ := Verified.inline_plain hsettled.tiles hinline
      refine ⟨Nat.lt_of_le_of_lt hshort (by decide), htable, ?_, hall⟩
      -- attributes are dropped or stay, none is added
      rw [← (Verified.attributes_of_inline hinline).length_eq]
      exact Nat.le_trans (List.length_filter_le _ _) hold.attributes.count
    · simp at hnone

end Conversion

/-- **Which converted classes can be read back.**  A class that was read and converted is read back from what is
written of it if the pool leaves a number for the count and no new body is too long for its length to be written.  A
body is read from its method again if all of its counts and lengths can be written.  Inference alone leaves two of them
open, the number of exception handlers and the lengths of the attributes. -/
theorem converted_read_back_iff {bytes : List UInt8} {c : ClassFile} {settings : Settings}
    {checker? : Option TypeChecker} {recording : Bool} {report : Report} (hread : ClassFile.ofBytes bytes = .ok c)
    (hresult : (c.convert settings checker? recording).value.result = .ok report) :
    let newCode := Conversion.newCode settings (settings.policy checker?) recording c
    let c' := (c.convert settings checker? recording).value.classFile
    (ClassFile.ofBytes c'.toBytes = .ok c' ↔ c.constants.constants.stop ≤ 65535 ∧
      ∀ m ∈ c.methods, ∀ new, newCode m = .ok (some new) → (write new).length < 2 ^ 32) ∧
    ∀ (i : Nat) (m : Member) (new : Code), c.methods[i]? = some m → newCode m = .ok (some new) →
      ∃ m', c'.methods[i]? = some m' ∧ (m'.code? c'.constants = .ok (some new) ↔ new.Fits) ∧
        (checker? = none → (new.Fits ↔ new.exceptionTable.length ≤ 65535 ∧ ∀ a ∈ new.attributes, a.Fits)) := by
  intro newCode c'
  have hpool := ClassFile.numbered_of_ofBytes hread
  have hclass : c' = { c with
      methods := c.methods.map (Conversion.converted settings (settings.policy checker?) recording c) } :=
    (Conversion.after_of_result hresult).classFile_eq
  have hfits := ClassFile.fits_of_ofBytes hread
  constructor
  · rw [ClassFile.ofBytes_toBytes_iff, hclass]
    constructor
    · intro h
      refine ⟨h.constants.stop, fun m hm new hnew => ?_⟩
      have hm' := h.methods.all _ (List.mem_map_of_mem hm)
      exact (Conversion.fits_converted_iff ((hfits h.constants.stop).methods.all m hm)).mp hm' new hnew
    · rintro ⟨hstop, hall⟩
      obtain ⟨hconstants, hinterfaces, hfields, hmethods, hattributes⟩ := hfits hstop
      refine ⟨hconstants, hinterfaces, hfields, ⟨by simpa using hmethods.count, ?_⟩, hattributes⟩
      intro m' hm'
      obtain ⟨m, hm, rfl⟩ := List.mem_map.mp hm'
      exact (Conversion.fits_converted_iff (hmethods.all m hm)).mpr (hall m hm)
  · intro i m new hm hnew
    obtain ⟨code, hcode⟩ := Conversion.exists_code_of_newCode hnew
    have hconverted : Conversion.converted settings (settings.policy checker?) recording c m =
        ((m.replaceCode new).run c.constants).1 := by
      unfold Conversion.converted
      rw [show Conversion.newCode settings (settings.policy checker?) recording c m = .ok (some new) from hnew]
    refine ⟨((m.replaceCode new).run c.constants).1, ?_, ?_, ?_⟩
    · rw [hclass]
      simp [hm, hconverted]
    · rw [hclass]
      exact Member.code?_replaceCode_iff hpool hcode
    · rintro rfl
      exact Conversion.fits_newCode_iff rfl hnew

/-! ## A pool without a number for its count -/

namespace ConstantPool

/-- Constants with a wide one behind them. -/
def endingWide (front : List Constant) : ConstantPool := ⟨.ofList 1 (front ++ [.long 0])⟩

theorem stop_append {constants : Tiling Constant} {items : List Constant}
    (h : constants.stop + (items.map width).sum < 2 ^ 64) :
    (constants.append items).stop = constants.stop + (items.map width).sum := by
  induction items generalizing constants with
  | nil => rfl
  | cons constant items ih =>
    rw [List.map_cons, List.sum_cons] at h ⊢
    have hpush := Tiling.stop_push_of_lt constants constant (by omega)
    have hrest := @ih (constants.push constant) (by omega)
    show ((constants.push constant).append items).stop = _
    omega

/-- The wide constant is read as long as its first number is below the count. -/
theorem takes_endingWide {front : List Constant} {count : UInt16} (hfits : ∀ constant ∈ front, constant.Fits)
    (hcount : 1 + (front.map width).sum + 1 = count.toNat) :
    (read : Reader ConstantPool).Takes (write count ++ (front.flatMap Constant.bytes ++ (Constant.long 0).bytes))
      (endingWide front) := by
  have hlt := count.toNat_lt
  have hstart : (Tiling.empty 1 : Tiling Constant).stop = 1 := rfl
  have hwide : width (Constant.long 0) = 2 := rfl
  have hlong : (Constant.long 0).Fits := trivial
  have hfront := @stop_append (.empty 1) front (by omega)
  have hpush := Tiling.stop_push_of_lt ((Tiling.empty 1).append front) (Constant.long 0) (by omega)
  have hend : ((Tiling.empty 1).append front).push (.long 0) = (endingWide front).constants := by
    show _ = (Tiling.empty 1).append (front ++ [.long 0])
    rw [Tiling.append, Tiling.append, List.foldl_append]
    rfl
  refine (Serial.readsBack_uint16 count).bind fun rest => ?_
  refine state_bind_eq_ok.mpr ⟨(endingWide front).constants, rest, ?_, rfl⟩
  rw [List.append_assoc, readUpTo_flatMap hfits (by omega), readUpTo_one hlong (by omega), hend,
    readUpTo_done (by rw [← hend]; omega)]

theorem stop_endingWide {front : List Constant} (h : (front.map width).sum < 2 ^ 32) :
    (endingWide front).constants.stop = (front.map width).sum + 3 := by
  have hstart : (Tiling.empty 1 : Tiling Constant).stop = 1 := rfl
  have hsum : ((front ++ [Constant.long 0]).map width).sum = (front.map width).sum + 2 := by
    rw [List.map_append, List.sum_append]
    rfl
  have hstop := @stop_append (.empty 1) (front ++ [.long 0]) (by omega)
  show ((Tiling.empty 1).append (front ++ [.long 0])).stop = _
  omega

end ConstantPool

namespace ClassFile

/-- The class with a pool and without members. -/
def ofPool (constants : ConstantPool) : ClassFile where
  version := ⟨49, 0⟩
  constants
  accessFlags := 1
  thisClass := 1
  superClass := 0
  interfaces := []
  fields := []
  methods := []
  attributes := []

/-- The bytes of a class without members, from those of its pool. -/
def bytesOfPool (constants : List UInt8) : List UInt8 :=
  write magic ++ (write (0 : UInt16) ++ (write (49 : UInt16) ++ (constants ++ (write (1 : UInt16) ++
    (write (1 : UInt16) ++ (write (0 : UInt16) ++ (write ([] : List ConstantIndex) ++ (write ([] : List Member) ++
      (write ([] : List Member) ++ write ([] : List Attribute))))))))))

/-- Bytes that are read as a pool are read as the class with it. -/
theorem ofBytes_bytesOfPool {pool : ConstantPool} {constants : List UInt8}
    (h : (read : Reader ConstantPool).Takes constants pool) : ofBytes (bytesOfPool constants) = .ok (ofPool pool) := by
  have hempty : ∀ {α : Type} [Serial α], Serial.ReadsBack ([] : List α) := fun {_} _ =>
    Serial.readsBack_list (Nat.zero_le _) (by simp)
  have hread : (read : Reader ClassFile).Takes (bytesOfPool constants) (ofPool pool) := by
    refine (Serial.readsBack_uint32 magic).bind ?_
    rw [if_neg (by simp)]
    exact (Serial.readsBack_uint16 0).bind <| (Serial.readsBack_uint16 49).bind <| h.bind <|
      (Serial.readsBack_uint16 1).bind <| (Serial.readsBack_uint16 1).bind <| (Serial.readsBack_uint16 0).bind <|
      hempty.bind <| hempty.bind <| hempty.bind <| hempty.finish _
  have hall := hread []
  rw [List.append_nil] at hall
  exact map_eq_ok.mpr ⟨(ofPool pool, []), hall, rfl⟩

end ClassFile

/-- A class with a subroutine is read back, and so is its new code.  A class in which all numbers are taken by class
constants and a wide constant behind them is read, and it is not read back. -/
theorem withCall_read_back_fullPool_not :
    (∃ c report m m' new, ClassFile.ofBytes (ClassFile.bytesOfBodies [.withCall]) = .ok c ∧
      (c.convert {} none false).value.result = .ok report ∧
      ClassFile.ofBytes (c.convert {} none false).value.classFile.toBytes =
        .ok (c.convert {} none false).value.classFile ∧
      c.methods[0]? = some m ∧ Conversion.newCode {} (Settings.policy {} none) false c m = .ok (some new) ∧
      (c.convert {} none false).value.classFile.methods[0]? = some m' ∧
      m'.code? (c.convert {} none false).value.classFile.constants = .ok (some new)) ∧
    ∃ bytes c, ClassFile.ofBytes bytes = .ok c ∧ (c.convert {} none false).value.result = .ok ⟨[], 0, []⟩ ∧
      ClassFile.ofBytes (c.convert {} none false).value.classFile.toBytes ≠
        .ok (c.convert {} none false).value.classFile := by
  constructor
  · have htest : (ClassFile.ofBytes (ClassFile.bytesOfBodies [.withCall])).toOption.any (fun c =>
        c.methods.length = 1 && c.constants.constants.stop ≤ 65535 && c.methods[0]?.any fun m =>
          (m.verifyWithin c 8).any fun found => found.2.hasSubroutines &&
            (found.2.inline found.1 c.constants).toOption.any fun new =>
              (write new).length < 2 ^ 32 && new.exceptionTable = [] && new.attributes = []) = true := by decide +kernel
    simp only [Option.any_eq_true, Bool.and_eq_true, decide_eq_true_eq, toOption_eq_some] at htest
    obtain ⟨c, hread, ⟨hlength, hstop⟩, m, hm, ⟨code, v⟩, hwithin, hcalls, new, hinline, ⟨hshort, htable⟩,
      hattributes⟩ := htest
    have hnew := Conversion.newCode_default hwithin false
    rw [if_pos hcalls, hinline] at hnew
    obtain ⟨first, hmethods⟩ := List.length_eq_one_iff.mp hlength
    obtain rfl : first = m := by simpa [hmethods] using hm
    obtain ⟨report, hresult, -⟩ :=
      @Conversion.convert_goes {} false c none (by simp [hmethods, hnew])
    obtain ⟨hback, hbodies⟩ := converted_read_back_iff hread hresult
    obtain ⟨m', hm', hbody, hfits⟩ := hbodies 0 first new hm hnew
    refine ⟨c, report, first, m', new, hread, hresult, hback.mpr ⟨hstop, ?_⟩, hm, hnew, hm',
      hbody.mpr ((hfits rfl).mpr ?_)⟩
    · intro m hmem new' hnew'
      rw [hmethods, List.mem_singleton] at hmem
      rw [hmem, hnew] at hnew'
      obtain rfl := Option.some.inj (Except.ok.inj hnew')
      exact hshort
    · simp [htable, hattributes]
  · have hsum : ((List.replicate 65533 (Constant.classInfo 1)).map width).sum = 65533 := by
      rw [List.map_replicate, List.sum_replicate_nat]
      rfl
    have hpool := @ConstantPool.takes_endingWide (List.replicate 65533 (.classInfo 1)) 65535
      (fun constant h => List.eq_of_mem_replicate h ▸ trivial) (by rw [hsum]; rfl)
    have hread := ClassFile.ofBytes_bytesOfPool hpool
    have hresult : ((ClassFile.ofPool (.endingWide (List.replicate 65533 (.classInfo 1)))).convert {} none
        false).value.result = .ok ⟨[], 0, []⟩ := rfl
    refine ⟨_, _, hread, hresult, fun hback => ?_⟩
    have hstop := ((converted_read_back_iff hread hresult).1.mp hback).1
    have hfull := @ConstantPool.stop_endingWide (List.replicate 65533 (.classInfo 1)) (by rw [hsum]; decide)
    change (ConstantPool.endingWide _).constants.stop ≤ 65535 at hstop
    omega

end Bytecode
