import Bytecode.Proofs.ClassReading
import Bytecode.Proofs.ModifiedUtf8
import Mathlib.Algebra.GroupWithZero.Nat

/-!
# Class files survive being written

No part of a class file is followed by a mark of its end, so each reader has to stop exactly where the writer did.

* `Reader.Takes`: a reader takes certain bytes off the front of every input and leaves the rest alone;
* `Serial.ReadsBack`: the reader of a type takes the bytes of a value as that value;
* `Fits`: the limits of the format, for constants, pools, attributes, bodies, members and classes.  They are those of
  the counts: a count keeps sixteen bits, and the length of an attribute and of code keeps thirty-two.

Within these limits everything reads back.
-/

namespace Bytecode

variable {α β : Type}

/-- A reader takes some bytes off the front of every input, as a value. -/
def Reader.Takes (reader : Reader α) (bytes : List UInt8) (a : α) : Prop :=
  ∀ rest, reader (bytes ++ rest) = .ok (a, rest)

/-- A value is read from the bytes that it is written in. -/
def Serial.ReadsBack [Serial α] (a : α) : Prop := (read : Reader α).Takes (write a) a

namespace Reader.Takes

theorem pure (a : α) : (Pure.pure a : Reader α).Takes [] a := fun _ => rfl

theorem bind {reader : Reader α} {next : α → Reader β} {front back : List UInt8} {a : α} {b : β}
    (h : reader.Takes front a) (hnext : (next a).Takes back b) : (reader >>= next).Takes (front ++ back) b := by
  intro rest
  rw [List.append_assoc]
  exact state_bind_eq_ok.mpr ⟨a, back ++ rest, h (back ++ rest), hnext rest⟩

theorem map {reader : Reader α} {bytes : List UInt8} {a : α} (h : reader.Takes bytes a) (f : α → β) :
    (f <$> reader).Takes bytes (f a) :=
  fun rest => state_map_eq_ok.mpr ⟨a, rest, h rest, rfl⟩

/-- The last part completes the whole. -/
theorem finish {reader : Reader α} {bytes : List UInt8} {a : α} (h : reader.Takes bytes a) (f : α → β) :
    (reader >>= fun a => Pure.pure (f a)).Takes bytes (f a) :=
  fun rest => state_bind_eq_ok.mpr ⟨a, rest, h rest, rfl⟩

end Reader.Takes

open Reader (Takes)
open Serial (ReadsBack)

/-! ## Numbers and counted sequences -/

namespace Binary

theorem takes_number (count : Nat) {n : Nat} (h : n < 256 ^ count) : (number count).Takes (bigEndian count n) n := by
  intro rest
  rw [number_bigEndian, Nat.mod_eq_of_lt h]

theorem takes_sized {width : Nat} {bytes : List UInt8} (h : bytes.length < 256 ^ width) :
    (readSized width).Takes (sized width bytes) bytes :=
  readSized_sized h

theorem takes_manyOnto [Serial α] {values : List α} (h : ∀ a ∈ values, ReadsBack a) (front : List α) :
    (manyOnto read values.length front).Takes (values.flatMap write) (front.reverse ++ values) := by
  induction values generalizing front with
  | nil =>
    rw [List.append_nil]
    exact Takes.pure front.reverse
  | cons a values ih =>
    have hrest := ih (fun b hb => h b (List.mem_cons_of_mem a hb)) (a :: front)
    rw [List.reverse_cons, List.append_assoc, List.singleton_append] at hrest
    exact (h a List.mem_cons_self).bind hrest

end Binary

namespace Serial

theorem readsBack_uint8 (n : UInt8) : ReadsBack n := by
  have h := (Binary.takes_number 1 n.toNat_lt).map UInt8.ofNat
  rwa [UInt8.ofNat_toNat] at h

theorem readsBack_uint16 (n : UInt16) : ReadsBack n := read_write_uint16 n

theorem readsBack_uint32 (n : UInt32) : ReadsBack n := by
  have h := (Binary.takes_number 4 n.toNat_lt).map UInt32.ofNat
  rwa [UInt32.ofNat_toNat] at h

theorem readsBack_uint64 (n : UInt64) : ReadsBack n := by
  have h := (Binary.takes_number 8 n.toNat_lt).map UInt64.ofNat
  rwa [UInt64.ofNat_toNat] at h

theorem readsBack_int32 (n : Int32) : ReadsBack n := (readsBack_uint32 n.toUInt32).map UInt32.toInt32

theorem readsBack_int64 (n : Int64) : ReadsBack n := (readsBack_uint64 n.toUInt64).map UInt64.toInt64

/-- As many values of a sequence are read as its count says, which is cut off to 16 bits. -/
theorem takes_list [Serial α] {values : List α} (h : ∀ a ∈ values, ReadsBack a) :
    (read : Reader (List α)).Takes
      (write (UInt16.ofNat values.length) ++ (values.take (values.length % 65536)).flatMap write)
      (values.take (values.length % 65536)) := by
  have hcount : (values.take (values.length % 65536)).length = (UInt16.ofNat values.length).toNat := by
    rw [List.length_take, Nat.min_eq_left (Nat.mod_le _ _)]
    exact UInt16.toNat_ofNat'.symm
  refine (readsBack_uint16 (UInt16.ofNat values.length)).bind ?_
  rw [← hcount]
  exact Binary.takes_manyOnto (fun a ha => h a (List.mem_of_mem_take ha)) []

/-- A sequence whose count is not cut off. -/
theorem readsBack_list [Serial α] {values : List α} (hcount : values.length ≤ 65535)
    (h : ∀ a ∈ values, ReadsBack a) : ReadsBack values := by
  have hall := takes_list h
  rwa [Nat.mod_eq_of_lt (Nat.lt_succ_of_le hcount), List.take_length] at hall

/-- Values that are past the count of their sequence are left over. -/
theorem read_write_list [Serial α] {values : List α} (h : ∀ a ∈ values, ReadsBack a) :
    (read : Reader (List α)) (write values) =
      .ok (values.take (values.length % 65536), (values.drop (values.length % 65536)).flatMap write) := by
  have hread := takes_list h ((values.drop (values.length % 65536)).flatMap write)
  rw [List.append_assoc, ← List.flatMap_append, List.take_append_drop] at hread
  exact hread

end Serial

open Serial

/-! ## Constants -/

theorem HandleKind.readsBack (kind : HandleKind) : ReadsBack kind := by
  intro rest
  refine state_bind_eq_ok.mpr ⟨kind.code, rest, readsBack_uint8 kind.code rest, ?_⟩
  rw [HandleKind.ofCode?_code]
  rfl

namespace Constant

/-- The text is not too long for its length to be written. -/
def Fits : Constant → Prop
  | .utf8 text => (ModifiedUtf8.encode text).length ≤ 65535
  | _ => True

instance : DecidablePred Fits
  | .utf8 text => inferInstanceAs (Decidable ((ModifiedUtf8.encode text).length ≤ 65535))
  | .integer _ | .float _ | .long _ | .double _ | .classInfo _ | .string _ | .field _ _ | .method _ _ _
  | .nameAndType _ _ | .methodHandle _ _ | .methodType _ | .dynamic _ _ | .invokeDynamic _ _ | .moduleInfo _
  | .packageInfo _ => .isTrue trivial

theorem takes_readText {text : String} (h : (ModifiedUtf8.encode text).length ≤ 65535) :
    readText.Takes (Binary.sized 2 (ModifiedUtf8.encode text)) text := by
  intro rest
  refine state_bind_eq_ok.mpr ⟨_, rest, Binary.takes_sized (by omega) rest, ?_⟩
  rw [ModifiedUtf8.decode?_encode]
  rfl

/-- The tag says which constant follows. -/
theorem takes_readAt {constant : Constant} (h : constant.Fits) (index : UInt16) :
    (readAt index).Takes constant.bytes constant := by
  have htag : ∀ {next : UInt8 → Reader Constant} {bytes : List UInt8} (tag : UInt8),
      (next tag).Takes bytes constant → ((read : Reader UInt8) >>= next).Takes (tag :: bytes) constant := by
    intro next bytes tag hnext
    have hwrite : write tag = [tag] := by simp [write, Binary.bigEndian]
    have h := (readsBack_uint8 tag).bind hnext
    rwa [hwrite] at h
  have hindex := readsBack_uint16
  cases constant with
  | utf8 text => exact htag 1 ((takes_readText h).finish Constant.utf8)
  | integer value => exact htag 3 ((readsBack_int32 value).finish Constant.integer)
  | float bits => exact htag 4 ((readsBack_uint32 bits).finish Constant.float)
  | long value => exact htag 5 ((readsBack_int64 value).finish Constant.long)
  | double bits => exact htag 6 ((readsBack_uint64 bits).finish Constant.double)
  | classInfo name => exact htag 7 ((hindex name).finish Constant.classInfo)
  | string text => exact htag 8 ((hindex text).finish Constant.string)
  | field owner signature => exact htag 9 ((hindex owner).bind ((hindex signature).finish (Constant.field owner)))
  | method owner signature ofInterface =>
    cases ofInterface with
    | false => exact htag 10 ((hindex owner).bind ((hindex signature).finish _))
    | true => exact htag 11 ((hindex owner).bind ((hindex signature).finish _))
  | nameAndType name descriptor => exact htag 12 ((hindex name).bind ((hindex descriptor).finish _))
  | methodHandle kind member => exact htag 15 (kind.readsBack.bind ((hindex member).finish _))
  | methodType descriptor => exact htag 16 ((hindex descriptor).finish Constant.methodType)
  | dynamic bootstrap signature => exact htag 17 ((hindex bootstrap).bind ((hindex signature).finish _))
  | invokeDynamic bootstrap signature => exact htag 18 ((hindex bootstrap).bind ((hindex signature).finish _))
  | moduleInfo name => exact htag 19 ((hindex name).finish Constant.moduleInfo)
  | packageInfo name => exact htag 20 ((hindex name).finish Constant.packageInfo)

end Constant

/-- Elements lie end to end, and no offset went past the greatest word. -/
structure Tiling.Laid [Width α] (t : Tiling α) : Prop where
  tiles : t = Tiling.ofList t.start t.items
  stop : t.stop = t.start + (t.items.map width).sum

namespace ConstantPool

/-- The constants are numbered from one on, and all texts fit. -/
structure WellFormed (constants : Tiling Constant) : Prop where
  start : constants.start = 1
  laid : constants.Laid
  texts : ∀ constant ∈ constants.items, constant.Fits

/-- The first number that is not used can be written as the count. -/
structure Fits (pool : ConstantPool) : Prop extends WellFormed pool.constants where
  stop : pool.constants.stop ≤ 65535

theorem readUpTo_done {count : UInt16} {constants : Tiling Constant} (h : count.toNat ≤ constants.stop)
    (rest : List UInt8) : readUpTo count constants rest = .ok (constants, rest) := by
  unfold readUpTo
  rw [if_neg (Nat.not_lt.mpr h)]

theorem readUpTo_one {count : UInt16} {constants : Tiling Constant} {constant : Constant} (hfits : constant.Fits)
    (h : constants.stop < count.toNat) (rest : List UInt8) :
    readUpTo count constants (constant.bytes ++ rest) = readUpTo count (constants.push constant) rest := by
  have hone : (Constant.readAt (UInt16.ofNat constants.stop)).on (constant.bytes ++ rest) = .ok (constant, rest) :=
    Constant.takes_readAt hfits _ rest
  rw [readUpTo, if_pos h, hone]

/-- Constants that end at or before the count are all read. -/
theorem readUpTo_flatMap {count : UInt16} {constants : Tiling Constant} {items : List Constant}
    (h : ∀ constant ∈ items, constant.Fits) (hstop : constants.stop + (items.map width).sum ≤ count.toNat)
    (rest : List UInt8) :
    readUpTo count constants (items.flatMap Constant.bytes ++ rest) = readUpTo count (constants.append items) rest := by
  have hcount := count.toNat_lt
  induction items generalizing constants with
  | nil => rfl
  | cons constant items ih =>
    have hpos := Constant.width_pos constant
    rw [List.map_cons, List.sum_cons] at hstop
    have hpush := Tiling.stop_push_of_lt constants constant (by omega)
    rw [List.flatMap_cons, List.append_assoc, readUpTo_one (h constant List.mem_cons_self) (by omega)]
    exact ih (fun other hother => h other (List.mem_cons_of_mem constant hother)) (by omega)

theorem Fits.readsBack {pool : ConstantPool} (h : pool.Fits) : ReadsBack pool := by
  have hcount : (UInt16.ofNat pool.constants.stop).toNat = pool.constants.stop :=
    UInt16.toNat_ofNat_of_lt' (Nat.lt_succ_of_le h.stop)
  -- the count that is written is the number behind the last constant, where reading stops
  have hstop : 1 + (pool.constants.items.map width).sum = (UInt16.ofNat pool.constants.stop).toNat := by
    rw [hcount, h.laid.stop, h.start]
  refine (readsBack_uint16 (UInt16.ofNat pool.constants.stop)).bind ?_
  intro rest
  have htiles := h.laid.tiles
  rw [h.start] at htiles
  refine state_bind_eq_ok.mpr ⟨pool.constants, rest, ?_, rfl⟩
  rw [readUpTo_flatMap h.texts (Nat.le_of_eq hstop), ← Tiling.ofList, ← htiles]
  exact readUpTo_done (Nat.le_of_eq hcount) rest

end ConstantPool

/-! ## Attributes and members -/

namespace Attribute

/-- The length of the contents can be written. -/
def Fits (a : Attribute) : Prop := a.info.length < 2 ^ 32

instance (a : Attribute) : Decidable a.Fits := inferInstanceAs (Decidable (a.info.length < 2 ^ 32))

theorem Fits.readsBack {a : Attribute} (h : a.Fits) : ReadsBack a :=
  (readsBack_uint16 a.nameIndex).bind ((Binary.takes_sized h).finish _)

end Attribute

theorem ExceptionHandler.readsBack (h : ExceptionHandler) : ReadsBack h := by
  have hwrite : write h = write h.startPc ++ (write h.endPc ++ (write h.handlerPc ++ write h.catchType)) := by
    simp only [write, List.append_assoc]
  rw [ReadsBack, hwrite]
  exact (readsBack_uint16 h.startPc).bind <| (readsBack_uint16 h.endPc).bind <|
    (readsBack_uint16 h.handlerPc).bind <| (readsBack_uint16 h.catchType).finish _

theorem LineNumber.readsBack (n : LineNumber) : ReadsBack n :=
  (readsBack_uint16 n.startPc).bind <| (readsBack_uint16 n.line).finish _

theorem LocalVariable.readsBack (v : LocalVariable) : ReadsBack v := by
  have hwrite : write v =
      write v.startPc ++ (write v.length ++ (write v.nameIndex ++ (write v.typeIndex ++ write v.slot))) := by
    simp only [write, List.append_assoc]
  rw [ReadsBack, hwrite]
  exact (readsBack_uint16 v.startPc).bind <| (readsBack_uint16 v.length).bind <|
    (readsBack_uint16 v.nameIndex).bind <| (readsBack_uint16 v.typeIndex).bind <| (readsBack_uint16 v.slot).finish _

/-- Counted attributes, each of which fits. -/
structure Attributes.Fit (attributes : List Attribute) : Prop where
  count : attributes.length ≤ 65535
  all : ∀ a ∈ attributes, a.Fits

instance (attributes : List Attribute) : Decidable (Attributes.Fit attributes) :=
  decidable_of_iff (attributes.length ≤ 65535 ∧ ∀ a ∈ attributes, a.Fits)
    ⟨fun h => ⟨h.1, h.2⟩, fun h => ⟨h.count, h.all⟩⟩

theorem Attributes.Fit.readsBack {attributes : List Attribute} (h : Attributes.Fit attributes) : ReadsBack attributes :=
  readsBack_list h.count fun a ha => (h.all a ha).readsBack

namespace Code

/-- All counts and lengths of a body can be written. -/
structure Fits (code : Code) : Prop where
  bytes : code.bytes.length < 2 ^ 32
  exceptionTable : code.exceptionTable.length ≤ 65535
  attributes : Attributes.Fit code.attributes

theorem Fits.readsBack {code : Code} (h : code.Fits) : ReadsBack code := by
  have hwrite : write code = write code.maxStack ++ (write code.maxLocals ++ (Binary.sized 4 code.bytes ++
      (write code.exceptionTable ++ write code.attributes))) := by
    simp only [write, List.append_assoc]
  have hhandlers := readsBack_list h.exceptionTable fun handler _ => handler.readsBack
  rw [ReadsBack, hwrite]
  exact (readsBack_uint16 code.maxStack).bind <| (readsBack_uint16 code.maxLocals).bind <|
    (Binary.takes_sized h.bytes).bind <| hhandlers.bind <| h.attributes.readsBack.finish _

end Code

theorem LineNumberTable.readsBack {t : LineNumberTable} (h : t.entries.length ≤ 65535) : ReadsBack t :=
  (readsBack_list h fun n _ => n.readsBack).finish LineNumberTable.mk

theorem LocalVariableTable.readsBack {t : LocalVariableTable} (h : t.entries.length ≤ 65535) : ReadsBack t :=
  (readsBack_list h fun v _ => v.readsBack).finish LocalVariableTable.mk

theorem LocalVariableTypeTable.readsBack {t : LocalVariableTypeTable} (h : t.entries.length ≤ 65535) : ReadsBack t :=
  (readsBack_list h fun v _ => v.readsBack).finish LocalVariableTypeTable.mk

/-- Contents that read back are what their attribute holds. -/
theorem Attribute.decode_encode [AttributeContents α] {contents : α} (h : ReadsBack contents) (pool : ConstantPool) :
    ((Attribute.encode contents).run pool).1.decode α = .ok contents := by
  have hread := h []
  rw [List.append_nil] at hread
  exact Attribute.decode_eq_ok.mpr hread

namespace Member

/-- All attributes of a member fit. -/
def Fits (m : Member) : Prop := Attributes.Fit m.attributes

instance (m : Member) : Decidable m.Fits := inferInstanceAs (Decidable (Attributes.Fit m.attributes))

theorem Fits.readsBack {m : Member} (h : m.Fits) : ReadsBack m := by
  have hwrite : write m =
      write m.accessFlags ++ (write m.nameIndex ++ (write m.descriptorIndex ++ write m.attributes)) := by
    simp only [write, List.append_assoc]
  rw [ReadsBack, hwrite]
  exact (readsBack_uint16 m.accessFlags).bind <| (readsBack_uint16 m.nameIndex).bind <|
    (readsBack_uint16 m.descriptorIndex).bind <| (Attributes.Fit.readsBack h).finish _

end Member

/-- Counted members, each of which fits. -/
structure Members.Fit (members : List Member) : Prop where
  count : members.length ≤ 65535
  all : ∀ m ∈ members, m.Fits

theorem Members.Fit.readsBack {members : List Member} (h : Members.Fit members) : ReadsBack members :=
  readsBack_list h.count fun m hm => (h.all m hm).readsBack

/-! ## Classes -/

namespace ClassFile

/-- The limits of the class file format. -/
structure Fits (c : ClassFile) : Prop where
  constants : c.constants.Fits
  interfaces : c.interfaces.length ≤ 65535
  fields : Members.Fit c.fields
  methods : Members.Fit c.methods
  attributes : Attributes.Fit c.attributes

/-- The parts of a class in the order in which they are read. -/
theorem write_eq (c : ClassFile) : write c = write magic ++ (write c.version.minor ++ (write c.version.major ++
    (write c.constants ++ (write c.accessFlags ++ (write c.thisClass ++ (write c.superClass ++ (write c.interfaces ++
      (write c.fields ++ (write c.methods ++ write c.attributes))))))))) := by
  simp only [write, List.append_assoc]

theorem Fits.readsBack {c : ClassFile} (h : c.Fits) : ReadsBack c := by
  have hinterfaces := readsBack_list h.interfaces fun i _ => readsBack_uint16 i
  rw [ReadsBack, write_eq]
  refine (readsBack_uint32 magic).bind ?_
  rw [if_neg (by simp)]
  exact (readsBack_uint16 c.version.minor).bind <| (readsBack_uint16 c.version.major).bind <|
    h.constants.readsBack.bind <| (readsBack_uint16 c.accessFlags).bind <| (readsBack_uint16 c.thisClass).bind <|
    (readsBack_uint16 c.superClass).bind <| hinterfaces.bind <| h.fields.readsBack.bind <|
    h.methods.readsBack.bind <| h.attributes.readsBack.finish _

end ClassFile

/-- **Within the limits of the format, what was written is read back**, whatever comes after it: every class, and the
contents of the attributes that belong to method bodies. -/
theorem written_read_back :
    (∀ (c : ClassFile) (rest : List UInt8), c.Fits → (read : Reader ClassFile).on (c.toBytes ++ rest) = .ok (c, rest)) ∧
    ∀ pool : ConstantPool,
      (∀ code : Code, code.Fits → ((Attribute.encode code).run pool).1.decode Code = .ok code) ∧
      (∀ t : LineNumberTable, t.entries.length ≤ 65535 →
        ((Attribute.encode t).run pool).1.decode LineNumberTable = .ok t) ∧
      (∀ t : LocalVariableTable, t.entries.length ≤ 65535 →
        ((Attribute.encode t).run pool).1.decode LocalVariableTable = .ok t) ∧
      (∀ t : LocalVariableTypeTable, t.entries.length ≤ 65535 →
        ((Attribute.encode t).run pool).1.decode LocalVariableTypeTable = .ok t) := by
  refine ⟨fun c rest h => h.readsBack rest, fun pool => ⟨?_, ?_, ?_, ?_⟩⟩
  · intro code h
    exact Attribute.decode_encode h.readsBack pool
  · intro t h
    exact Attribute.decode_encode (LineNumberTable.readsBack h) pool
  · intro t h
    exact Attribute.decode_encode (LocalVariableTable.readsBack h) pool
  · intro t h
    exact Attribute.decode_encode (LocalVariableTypeTable.readsBack h) pool

/-- A body with one handler and an attribute. -/
def ClassFile.sampleBody : Code := ⟨1, 2, [0x03, 0xac], [⟨0, 1, 1, 0⟩], [⟨5, [0, 1, 0, 0, 0, 9]⟩]⟩

/-- A class whose name holds a zero and a character past the basic plane.  Wide constants stand in the middle of the
pool and at its end; the last is not a number. -/
def ClassFile.sample : ClassFile where
  version := ⟨49, 3⟩
  constants := ⟨.ofList 1 [.utf8 "A\x00𝄞", .classInfo 1, .long (-7), .utf8 "LineNumberTable", .method 2 1 true,
    .methodHandle .invokeStatic 6, .double 0x7ff8000000000001]⟩
  accessFlags := 0x0021
  thisClass := 2
  superClass := 0
  interfaces := [2, 2]
  fields := [⟨0, 1, 1, []⟩]
  methods := [⟨9, 1, 1, [⟨1, write sampleBody⟩]⟩]
  attributes := [⟨5, []⟩]

/-- The class is read up to the byte that follows it, and so is its body. -/
theorem sample_read_back :
    ClassFile.sample.Fits ∧ ClassFile.sampleBody.Fits ∧
    (read : Reader ClassFile).on (ClassFile.sample.toBytes ++ [0xCA]) = .ok (ClassFile.sample, [0xCA]) ∧
    ((Attribute.encode ClassFile.sampleBody).run .empty).1.decode Code = .ok ClassFile.sampleBody := by
  have hclass : ClassFile.sample.Fits :=
    ⟨⟨⟨rfl, ⟨rfl, rfl⟩, by decide +kernel⟩, by decide⟩, by decide, ⟨by decide, by decide +kernel⟩,
      ⟨by decide, by decide +kernel⟩, by decide +kernel⟩
  have hbody : ClassFile.sampleBody.Fits := ⟨by decide, by decide, by decide⟩
  exact ⟨hclass, hbody, written_read_back.1 _ [0xCA] hclass, (written_read_back.2 .empty).1 _ hbody⟩

end Bytecode
