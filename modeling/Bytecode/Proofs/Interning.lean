import Bytecode.Proofs.Limits
import Bytecode.Proofs.TilingEdits

/-!
# Requests to a constant pool

A pool is asked for constants and for what they stand for (`ConstantPool.Request`).  A request adds what is missing and
gives an index.  All of this happens at the end of the pool, so an index keeps its meaning:

* `ConstantPool.ofItems`: every pool that is read or built is laid out from the list of its constants, and a request
  only makes the list longer (`ConstantPool.intern_leads`);
* `ConstantPool.Leads`: an index is that of a constant, and of the first one there is that is the same.  Adding
  constants does not change this, so a request that is made again finds what it found before;
* `ConstantPool.Request.settled`: what one request does, from what its parts do (`ConstantPool.Settles.bind`);
* `ConstantPool.requests_kept`: what any number of requests do.
-/

namespace Bytecode

variable {pool : ConstantPool} {items : List Constant} {index : ConstantIndex} {c : Constant}

namespace Constant

/-! ## The same constant -/

/-- Equality of numbers that are compared by sign and magnitude. -/
def sameNumber {β : Type} [DecidableEq β] (magnitude : β → Nat) (infinity : Nat) (a b : β) : Bool :=
  magnitude a ≤ infinity && magnitude b ≤ infinity && (a == b || (magnitude a == 0 && magnitude b == 0))

theorem sameNumber_congr {β : Type} [DecidableEq β] {magnitude : β → Nat} {infinity : Nat} {a b : β}
    (h : sameNumber magnitude infinity a b = true) (c : β) :
    sameNumber magnitude infinity c a = sameNumber magnitude infinity c b := by
  unfold sameNumber at h ⊢
  simp only [Bool.and_eq_true, Bool.or_eq_true, beq_iff_eq, decide_eq_true_eq] at h
  obtain ⟨-, rfl | ⟨ha, hb⟩⟩ := h
  · rfl
  · -- a number with no magnitude equals those that have none either
    by_cases hc : magnitude c = 0
    · simp [ha, hb, hc]
    · have hca : (c == a) = false := beq_eq_false_iff_ne.mpr fun heq => hc (heq ▸ ha)
      have hcb : (c == b) = false := beq_eq_false_iff_ne.mpr fun heq => hc (heq ▸ hb)
      simp [ha, hb, hca, hcb]

/-- What is the same as one of two same constants is the same as the other. -/
theorem same_congr {a b : Constant} (h : a.same b = true) (c : Constant) : c.same a = c.same b := by
  unfold same at h
  split at h
  · cases c with
    | float bits => exact sameNumber_congr h bits
    | _ => simp [same]
  · cases c with
    | double bits => exact sameNumber_congr h bits
    | _ => simp [same]
  · rw [of_decide_eq_true h]

/-- Constants that are no number of the floating kinds. -/
def IsExact : Constant → Prop
  | .float _ | .double _ => False
  | _ => True

theorem IsExact.same_iff (h : c.IsExact) {found : Constant} : found.same c = true ↔ found = c := by
  cases c with
  | float bits => exact h.elim
  | double bits => exact h.elim
  | _ => cases found <;> simp [same]

/-- Bits that stand for no number. -/
def IsNaN : Constant → Prop
  | .float bits => 0x7F800000 < magnitude32 bits
  | .double bits => 0x7FF0000000000000 < magnitude64 bits
  | _ => False

/-- Only what is no number differs from itself. -/
theorem same_self_iff : c.same c = true ↔ ¬ c.IsNaN := by
  cases c <;> simp [same, IsNaN, sameFloat, sameDouble]

end Constant

theorem Tiling.find?_tiles {α : Type} (t : Tiling α) (p : α → Bool) :
    (t.tiles.find? fun tile => p tile.2) = (t.items.findIdx? p).bind t.get? := by
  rw [← Array.find?_toList, List.find?_eq_bind_findIdx?_getElem?, items, List.findIdx?_map]
  simp only [Array.getElem?_toList]
  rfl

namespace ConstantPool

/-! ## Pools by their constants -/

/-- The pool that holds these constants. -/
def ofItems (items : List Constant) : ConstantPool := ⟨.ofList 1 items⟩

/-- Index of the constant with a place. -/
def numberAt (items : List Constant) (place : Nat) : ConstantIndex := UInt16.ofNat (Tiling.offsetAt 1 items place)

/-- Is there an index for every constant? -/
def InRange (items : List Constant) : Prop := 1 + (items.map width).sum ≤ 65536

theorem numberAt_append {place : Nat} (h : place ≤ items.length) (added : List Constant) :
    numberAt (items ++ added) place = numberAt items place := by
  rw [numberAt, Tiling.offsetAt_append h, numberAt]

/-- Zero is no index, and neither is the second number that a wide constant takes. -/
structure Gapped (pool : ConstantPool) : Prop where
  zero : pool.get? 0 = none
  long : ∀ index value, pool.get? index = some (.long value) → pool.get? (index + 1) = none
  double : ∀ index bits, pool.get? index = some (.double bits) → pool.get? (index + 1) = none

namespace InRange

variable {items more : List Constant} {index : ConstantIndex} {c : Constant} {place : Nat}

theorem earlier (h : InRange more) (hmore : items <+: more) : InRange items := by
  obtain ⟨added, rfl⟩ := hmore
  unfold InRange at h ⊢
  rw [List.map_append, List.sum_append] at h
  omega

theorem places (h : InRange items) : (Tiling.ofList 1 items).Places 1 items := by
  have hfits : 1 + (items.map width).sum < 2 ^ 64 := Nat.lt_of_le_of_lt h (by decide)
  exact (Tiling.stored_ofList hfits).places fun c _ => c.width_pos

theorem get?_eq_some_iff (h : InRange items) : (ofItems items).get? index = some c ↔
    ∃ place, items[place]? = some c ∧ index.toNat = Tiling.offsetAt 1 items place := by
  have hlocate : (ofItems items).get? index = some c ↔
      ∃ place, (Tiling.ofList 1 items).locate index.toNat = .found place c := by
    show ((Tiling.ofList 1 items).locate index.toNat).item? = some c ↔ _
    cases (Tiling.ofList 1 items).locate index.toNat <;> simp [Located.item?]
  simp only [hlocate, h.places.found_iff]

theorem offsetAt_add_width_le (h : InRange items) (hc : items[place]? = some c) :
    Tiling.offsetAt 1 items place + width c ≤ 65536 := by
  have hle : Tiling.offsetAt 1 items place + width c ≤ Tiling.offsetAt 1 items items.length :=
    Tiling.offsetAt_add_width_le (List.getElem?_eq_some_iff.mp hc).1 hc
  rw [Tiling.offsetAt_length] at hle
  exact Nat.le_trans hle h

theorem toNat_numberAt (h : InRange items) (hc : items[place]? = some c) :
    (numberAt items place).toNat = Tiling.offsetAt 1 items place := by
  have hle := h.offsetAt_add_width_le hc
  have hpos := c.width_pos
  have hlt : Tiling.offsetAt 1 items place < 65536 := by omega
  exact UInt16.toNat_ofNat_of_lt' hlt

theorem get?_succ (h : InRange items) (hc : (ofItems items).get? index = some c) (hwide : width c = 2) :
    (ofItems items).get? (index + 1) = none := by
  obtain ⟨place, hplace, hindex⟩ := h.get?_eq_some_iff.mp hc
  have hle := h.offsetAt_add_width_le hplace
  -- a wide constant has both of its numbers in range, so the second does not start over
  have hsucc : (index + 1).toNat = index.toNat + 1 := by
    rw [UInt16.toNat_add]
    exact Nat.mod_eq_of_lt (by simp only [UInt16.toNat_one]; omega)
  have hinside := (h.places.inside_iff (index + 1).toNat place).mpr ⟨c, hplace, by omega, by omega⟩
  show ((Tiling.ofList 1 items).locate (index + 1).toNat).item? = none
  rw [hinside]
  rfl

theorem gapped (h : InRange items) : (ofItems items).Gapped where
  zero := by
    have hbefore := (h.places.before_iff 0).mpr Nat.zero_lt_one
    show ((Tiling.ofList 1 items).locate 0).item? = none
    rw [hbefore]
    rfl
  long index value hc := h.get?_succ hc rfl
  double index bits hc := h.get?_succ hc rfl

/-- No constant moves when others are added. -/
theorem get?_mono (h : InRange more) (hmore : items <+: more) (hc : (ofItems items).get? index = some c) :
    (ofItems more).get? index = some c := by
  obtain ⟨place, hplace, hindex⟩ := (h.earlier hmore).get?_eq_some_iff.mp hc
  obtain ⟨added, rfl⟩ := hmore
  have hlt := (List.getElem?_eq_some_iff.mp hplace).1
  refine h.get?_eq_some_iff.mpr ⟨place, ?_, ?_⟩
  · rw [List.getElem?_append_left hlt, hplace]
  · rw [Tiling.offsetAt_append (Nat.le_of_lt hlt), hindex]

end InRange

/-! ## First of the same constants -/

/-- An index is that of a constant, and constants that are the same are found there first. -/
def Leads (items : List Constant) (index : ConstantIndex) (c : Constant) : Prop :=
  ∃ place, items[place]? = some c ∧ index = numberAt items place ∧
    ∀ again : Constant, c.same again = true → (items.findIdx? fun b => b.same again) = some place

namespace Leads

variable {items more : List Constant} {index : ConstantIndex} {c : Constant}

theorem mono (h : Leads items index c) (hmore : items <+: more) : Leads more index c := by
  obtain ⟨added, rfl⟩ := hmore
  obtain ⟨place, hplace, hindex, hfirst⟩ := h
  have hlt := (List.getElem?_eq_some_iff.mp hplace).1
  refine ⟨place, ?_, ?_, fun again hagain => ?_⟩
  · rw [List.getElem?_append_left hlt, hplace]
  · rw [numberAt_append (Nat.le_of_lt hlt), hindex]
  · rw [List.findIdx?_append, hfirst again hagain, Option.some_or]

theorem get? (h : Leads items index c) (hrange : InRange items) : (ofItems items).get? index = some c := by
  obtain ⟨place, hplace, rfl, -⟩ := h
  exact hrange.get?_eq_some_iff.mpr ⟨place, hplace, hrange.toNat_numberAt hplace⟩

theorem ne_zero (h : Leads items index c) (hrange : InRange items) : index ≠ 0 := by
  intro hzero
  have hget := h.get? hrange
  rw [hzero, hrange.gapped.zero] at hget
  simp at hget

end Leads

/-- An index keeps the low bits of an offset, which are there whether or not offsets have started over. -/
theorem ofNat_wrap (n : Nat) : UInt16.ofNat (Word.wrap n) = UInt16.ofNat n := by
  rw [← UInt16.ofNat_mod_size, ← @UInt16.ofNat_mod_size n, Word.wrap]
  congr 1
  omega

theorem run_intern_of_some {place : Nat} (h : (items.findIdx? fun b => b.same c) = some place) :
    (intern c).run (ofItems items) = (numberAt items place, ofItems items) := by
  have hlt := (List.findIdx?_eq_some_iff_getElem.mp h).1
  have hfind : ((ofItems items).constants.tiles.find? fun tile => tile.2.same c) =
      some (Word.wrap (Tiling.offsetAt 1 items place), items[place]) := by
    rw [Tiling.find?_tiles (ofItems items).constants fun b => b.same c, ofItems, Tiling.items_ofList, h,
      Option.bind_some, (Tiling.offsets_ofList (by decide) items).2, List.getElem?_eq_getElem hlt, Option.map_some]
  show intern c (ofItems items) = _
  unfold intern
  rw [hfind]
  exact congrArg (·, ofItems items) (ofNat_wrap _)

theorem run_intern_of_none (h : (items.findIdx? fun b => b.same c) = none) :
    (intern c).run (ofItems items) = (numberAt items items.length, ofItems (items ++ [c])) := by
  have hfind : ((ofItems items).constants.tiles.find? fun tile => tile.2.same c) = none := by
    rw [Tiling.find?_tiles (ofItems items).constants fun b => b.same c, ofItems, Tiling.items_ofList, h,
      Option.bind_none]
  have hstop : UInt16.ofNat (ofItems items).constants.stop = numberAt items items.length := by
    rw [ofItems, (Tiling.offsets_ofList (by decide) items).1, ofNat_wrap, numberAt]
  have hpush : (ofItems items).constants.push c = .ofList 1 (items ++ [c]) := (Tiling.ofList_concat 1 items c).symm
  show intern c (ofItems items) = _
  unfold intern
  rw [hfind]
  exact Prod.ext hstop (congrArg ConstantPool.mk hpush)

/-- What is asked for is found, or it is added at the end; the index leads there. -/
theorem intern_leads (c : Constant) (items : List Constant) :
    ∃ index later found, (intern c).run (ofItems items) = (index, ofItems later) ∧ items <+: later ∧
      Leads later index found ∧ (found = c ∨ found.same c = true) := by
  cases hfind : items.findIdx? fun b => b.same c with
  | some place =>
    obtain ⟨hlt, hsame, -⟩ := List.findIdx?_eq_some_iff_getElem.mp hfind
    refine ⟨_, items, items[place], run_intern_of_some hfind, List.prefix_refl items,
      ⟨place, List.getElem?_eq_getElem hlt, rfl, fun again hagain => ?_⟩, .inr hsame⟩
    rw [← hfind]
    congr 1
    funext b
    rw [← Constant.same_congr hagain b, Constant.same_congr hsame b]
  | none =>
    refine ⟨_, items ++ [c], c, run_intern_of_none hfind, List.prefix_append items [c],
      ⟨items.length, by simp, (numberAt_append (Nat.le_refl _) [c]).symm, fun again hagain => ?_⟩, .inl rfl⟩
    have hnone : (items.findIdx? fun b => b.same again) = none := by
      rw [← hfind]
      congr 1
      funext b
      exact (Constant.same_congr hagain b).symm
    rw [List.findIdx?_append, hnone, List.findIdx?_singleton, if_pos hagain]
    simp

theorem Leads.intern {again : Constant} (h : Leads items index c)
    (hagain : c.same again = true) : (ConstantPool.intern again).run (ofItems items) = (index, ofItems items) := by
  obtain ⟨place, -, rfl, hfirst⟩ := h
  exact run_intern_of_some (hfirst again hagain)

/-! ## Lookups -/

theorem className_of_get? {name : ConstantIndex}
    (h : pool.get? index = some (.classInfo name)) : pool.className index = pool.utf8 name := by
  rw [className, h]

theorem nameAndType_of_get? {n d : ConstantIndex} {name descriptor : String}
    (h : pool.get? index = some (.nameAndType n d)) (hn : pool.utf8 n = .ok name) (hd : pool.utf8 d = .ok descriptor) :
    pool.nameAndType index = .ok (name, descriptor) := by
  rw [nameAndType, h]
  exact bind_eq_ok.mpr ⟨name, hn, bind_eq_ok.mpr ⟨descriptor, hd, rfl⟩⟩

theorem memberRef_eq_ok {o s : ConstantIndex} {owner name descriptor : String}
    (ho : pool.className o = .ok owner) (hs : pool.nameAndType s = .ok (name, descriptor)) :
    pool.memberRef o s = .ok ⟨owner, name, descriptor⟩ :=
  bind_eq_ok.mpr ⟨owner, ho, bind_eq_ok.mpr ⟨(name, descriptor), hs, rfl⟩⟩

namespace Leads

variable {items : List Constant} {index : ConstantIndex}

theorem utf8 {text : String} (h : Leads items index (.utf8 text)) (hrange : InRange items) :
    (ofItems items).utf8 index = .ok text :=
  utf8_eq_ok.mpr (h.get? hrange)

theorem className {n : ConstantIndex} {name : String} (h : Leads items index (.classInfo n))
    (hname : Leads items n (.utf8 name)) (hrange : InRange items) : (ofItems items).className index = .ok name :=
  (className_of_get? (h.get? hrange)).trans (hname.utf8 hrange)

theorem nameAndType {n d : ConstantIndex} {name descriptor : String} (h : Leads items index (.nameAndType n d))
    (hname : Leads items n (.utf8 name)) (hdescriptor : Leads items d (.utf8 descriptor)) (hrange : InRange items) :
    (ofItems items).nameAndType index = .ok (name, descriptor) :=
  nameAndType_of_get? (h.get? hrange) (hname.utf8 hrange) (hdescriptor.utf8 hrange)

end Leads

/-! ## Parts of requests -/

/-- A run of a computation that only adds constants, and that adds none when it is run once more at any later time. -/
structure Settles (m : StateM ConstantPool ConstantIndex) (items : List Constant) (index : ConstantIndex)
    (later : List Constant) : Prop where
  run : m.run (ofItems items) = (index, ofItems later)
  extend : items <+: later
  again : ∀ more, later <+: more → m.run (ofItems more) = (index, ofItems more)

/-- One computation after the other. -/
theorem Settles.bind {m : StateM ConstantPool ConstantIndex} {next : ConstantIndex → StateM ConstantPool ConstantIndex}
    {between later : List Constant} {first : ConstantIndex} (hm : Settles m items first between)
    (hnext : Settles (next first) between index later) : Settles (m >>= next) items index later where
  run := by
    rw [StateT.run_bind, hm.run]
    exact hnext.run
  extend := hm.extend.trans hnext.extend
  again more hmore := by
    rw [StateT.run_bind, hm.again more (hnext.extend.trans hmore)]
    exact hnext.again more hmore

theorem settles_intern (hc : c.IsExact) (items : List Constant) :
    ∃ index later, Settles (intern c) items index later ∧ Leads later index c := by
  obtain ⟨index, later, found, hrun, hextend, hleads, hfound⟩ := intern_leads c items
  obtain rfl : found = c := hfound.elim id hc.same_iff.mp
  exact ⟨index, later, ⟨hrun, hextend, fun more hmore => (hleads.mono hmore).intern (hc.same_iff.mpr rfl)⟩, hleads⟩

theorem settles_utf8 (text : String) (items : List Constant) :
    ∃ index later, Settles (internUtf8 text) items index later ∧ Leads later index (.utf8 text) :=
  settles_intern (c := .utf8 text) trivial items

/-- A constant that refers to a text. -/
theorem settles_ofText (wrap : ConstantIndex → Constant) (hwrap : ∀ name, (wrap name).IsExact) (text : String)
    (items : List Constant) :
    ∃ name index later, Settles (internUtf8 text >>= fun name => intern (wrap name)) items index later ∧
      Leads later index (wrap name) ∧ Leads later name (.utf8 text) := by
  obtain ⟨name, between, hname, htext⟩ := settles_utf8 text items
  obtain ⟨index, later, hindex, hleads⟩ := settles_intern (hwrap name) between
  exact ⟨name, index, later, hname.bind hindex, hleads, htext.mono hindex.extend⟩

theorem settles_nameAndType (name descriptor : String) (items : List Constant) :
    ∃ n d index later, Settles (internNameAndType name descriptor) items index later ∧
      Leads later index (.nameAndType n d) ∧ Leads later n (.utf8 name) ∧ Leads later d (.utf8 descriptor) := by
  obtain ⟨n, named, hn, hname⟩ := settles_utf8 name items
  obtain ⟨d, typed, hd, hdescriptor⟩ := settles_utf8 descriptor named
  obtain ⟨index, later, hindex, hleads⟩ := settles_intern (c := .nameAndType n d) trivial typed
  exact ⟨n, d, index, later, hn.bind (hd.bind hindex), hleads, hname.mono (hd.extend.trans hindex.extend),
    hdescriptor.mono hindex.extend⟩

/-- A constant that refers to a member of a class. -/
theorem settles_ofMember (wrap : ConstantIndex → ConstantIndex → Constant) (hwrap : ∀ o s, (wrap o s).IsExact)
    (owner name descriptor : String) (items : List Constant) :
    ∃ o s index later,
      Settles (internClass owner >>= fun o => internNameAndType name descriptor >>= fun s => intern (wrap o s))
        items index later ∧ Leads later index (wrap o s) ∧
      ∀ more, later <+: more → InRange more →
        (ofItems more).className o = .ok owner ∧ (ofItems more).nameAndType s = .ok (name, descriptor) := by
  obtain ⟨c, o, owned, ho, howner, hc⟩ := settles_ofText .classInfo (fun _ => trivial) owner items
  obtain ⟨n, d, s, signed, hs, hsignature, hn, hd⟩ := settles_nameAndType name descriptor owned
  obtain ⟨index, later, hindex, hleads⟩ := settles_intern (hwrap o s) signed
  refine ⟨o, s, index, later, ho.bind (hs.bind hindex), hleads, fun more hlater hrange => ?_⟩
  have hmore := hindex.extend.trans hlater
  have hall := hs.extend.trans hmore
  exact ⟨(howner.mono hall).className (hc.mono hall) hrange,
    (hsignature.mono hmore).nameAndType (hn.mono hmore) (hd.mono hmore) hrange⟩

/-! ## Requests -/

/-- What a pool is asked for. -/
inductive Request where
  | constant (c : Constant)
  | utf8 (text : String)
  | classInfo (name : String)
  | string (text : String)
  | nameAndType (name descriptor : String)
  | field (owner name descriptor : String)
  | method (owner name descriptor : String) (ofInterface : Bool)

namespace Request

/-- Ask for it, and get an index. -/
def perform : Request → StateM ConstantPool ConstantIndex
  | .constant c => intern c
  | .utf8 text => internUtf8 text
  | .classInfo name => internClass name
  | .string text => internString text
  | .nameAndType name descriptor => internNameAndType name descriptor
  | .field owner name descriptor => internField owner name descriptor
  | .method owner name descriptor ofInterface => internMethod owner name descriptor ofInterface

/-- Is a constant what was asked for?  Its references have to lead to what it should stand for. -/
def IsMetBy (pool : ConstantPool) : Request → Constant → Prop
  | .constant c, found => found = c ∨ found.same c = true
  | .utf8 text, found => found = .utf8 text
  | .classInfo name, found => ∃ n, found = .classInfo n ∧ pool.utf8 n = .ok name
  | .string text, found => ∃ t, found = .string t ∧ pool.utf8 t = .ok text
  | .nameAndType name descriptor, found =>
    ∃ n d, found = .nameAndType n d ∧ pool.utf8 n = .ok name ∧ pool.utf8 d = .ok descriptor
  | .field owner name descriptor, found =>
    ∃ o s, found = .field o s ∧ pool.className o = .ok owner ∧ pool.nameAndType s = .ok (name, descriptor)
  | .method owner name descriptor ofInterface, found =>
    ∃ o s, found = .method o s ofInterface ∧ pool.className o = .ok owner ∧
      pool.nameAndType s = .ok (name, descriptor)

/-- Does the lookup for requests of this kind give back what was passed in? -/
def ReadsBack (pool : ConstantPool) (index : ConstantIndex) : Request → Prop
  | .constant _ | .string _ => True
  | .utf8 text => pool.utf8 index = .ok text
  | .classInfo name => pool.className index = .ok name
  | .nameAndType name descriptor => pool.nameAndType index = .ok (name, descriptor)
  | .field owner name descriptor => pool.fieldRef index = .ok ⟨owner, name, descriptor⟩
  | .method owner name descriptor _ => pool.methodRef index = .ok ⟨owner, name, descriptor⟩

theorem IsMetBy.readsBack {request : Request}
    (h : request.IsMetBy pool c) (hget : pool.get? index = some c) : request.ReadsBack pool index := by
  cases request with
  | constant _ => trivial
  | string text => trivial
  | utf8 text =>
    obtain rfl : c = .utf8 text := h
    exact utf8_eq_ok.mpr hget
  | classInfo name =>
    obtain ⟨n, rfl, hname⟩ := h
    exact (className_of_get? hget).trans hname
  | nameAndType name descriptor =>
    obtain ⟨n, d, rfl, hname, hdescriptor⟩ := h
    exact nameAndType_of_get? hget hname hdescriptor
  | field owner name descriptor =>
    obtain ⟨o, s, rfl, howner, hsignature⟩ := h
    rw [ReadsBack, fieldRef, hget]
    exact memberRef_eq_ok howner hsignature
  | method owner name descriptor ofInterface =>
    obtain ⟨o, s, rfl, howner, hsignature⟩ := h
    rw [ReadsBack, methodRef, hget]
    exact memberRef_eq_ok howner hsignature

/-- Anything but bits that stand for no number. -/
def IsDefinite : Request → Prop
  | .constant c => ¬ c.IsNaN
  | _ => True

/-- What a request has done to the list of constants. -/
structure Settled (request : Request) (items : List Constant) (index : ConstantIndex) (later : List Constant)
    (c : Constant) : Prop where
  run : request.perform.run (ofItems items) = (index, ofItems later)
  extend : items <+: later
  leads : Leads later index c
  isMetBy : ∀ more, later <+: more → InRange more → request.IsMetBy (ofItems more) c
  again : request.IsDefinite → ∀ more, later <+: more → request.perform.run (ofItems more) = (index, ofItems more)

theorem settled_of_settles {request : Request} {later : List Constant}
    (h : Settles request.perform items index later) (hleads : Leads later index c)
    (hmet : ∀ more, later <+: more → InRange more → request.IsMetBy (ofItems more) c) :
    request.Settled items index later c :=
  ⟨h.run, h.extend, hleads, hmet, fun _ => h.again⟩

/-- What one request does. -/
theorem settled (request : Request) (items : List Constant) :
    ∃ index later c, request.Settled items index later c := by
  cases request with
  | constant c =>
    obtain ⟨index, later, found, hrun, hextend, hleads, hfound⟩ := intern_leads c items
    refine ⟨index, later, found, hrun, hextend, hleads, fun _ _ _ => hfound, fun hdefinite more hmore => ?_⟩
    have hself : c.same c = true := Constant.same_self_iff.mpr hdefinite
    have hsame : found.same c = true := hfound.elim (fun heq => heq ▸ hself) id
    exact (hleads.mono hmore).intern hsame
  | utf8 text =>
    obtain ⟨index, later, hsettles, hleads⟩ := settles_utf8 text items
    exact ⟨index, later, _, settled_of_settles hsettles hleads fun more _ _ => rfl⟩
  | classInfo name =>
    obtain ⟨n, index, later, hsettles, hleads, hname⟩ := settles_ofText .classInfo (fun _ => trivial) name items
    exact ⟨index, later, _, settled_of_settles hsettles hleads fun more hmore hrange =>
      ⟨n, rfl, (hname.mono hmore).utf8 hrange⟩⟩
  | string text =>
    obtain ⟨t, index, later, hsettles, hleads, htext⟩ := settles_ofText .string (fun _ => trivial) text items
    exact ⟨index, later, _, settled_of_settles hsettles hleads fun more hmore hrange =>
      ⟨t, rfl, (htext.mono hmore).utf8 hrange⟩⟩
  | nameAndType name descriptor =>
    obtain ⟨n, d, index, later, hsettles, hleads, hn, hd⟩ := settles_nameAndType name descriptor items
    exact ⟨index, later, _, settled_of_settles hsettles hleads fun more hmore hrange =>
      ⟨n, d, rfl, (hn.mono hmore).utf8 hrange, (hd.mono hmore).utf8 hrange⟩⟩
  | field owner name descriptor =>
    obtain ⟨o, s, index, later, hsettles, hleads, hrefs⟩ :=
      settles_ofMember .field (fun _ _ => trivial) owner name descriptor items
    exact ⟨index, later, _, settled_of_settles hsettles hleads fun more hmore hrange =>
      ⟨o, s, rfl, hrefs more hmore hrange⟩⟩
  | method owner name descriptor ofInterface =>
    obtain ⟨o, s, index, later, hsettles, hleads, hrefs⟩ :=
      settles_ofMember (.method · · ofInterface) (fun _ _ => trivial) owner name descriptor items
    exact ⟨index, later, _, settled_of_settles hsettles hleads fun more hmore hrange =>
      ⟨o, s, rfl, hrefs more hmore hrange⟩⟩

/-- What can be relied on at any time after a request has given an index. -/
structure Kept (request : Request) (index : ConstantIndex) (pool : ConstantPool) : Prop where
  ne_zero : index ≠ 0
  /-- The constant is there, and whoever asks for the same is led to it. -/
  found : ∃ c, pool.get? index = some c ∧ request.IsMetBy pool c ∧
    ∀ again, c.same again = true → (intern again).run pool = (index, pool)
  readsBack : request.ReadsBack pool index
  /-- Asking again changes nothing. -/
  again : request.IsDefinite → request.perform.run pool = (index, pool)

theorem Settled.kept {request : Request} {later more : List Constant}
    (h : request.Settled items index later c) (hmore : later <+: more) (hrange : InRange more) :
    request.Kept index (ofItems more) := by
  have hleads := h.leads.mono hmore
  have hget := hleads.get? hrange
  have hmet := h.isMetBy more hmore hrange
  exact {
    ne_zero := hleads.ne_zero hrange
    found := ⟨c, hget, hmet, fun again hagain => hleads.intern hagain⟩
    readsBack := hmet.readsBack hget
    again := fun hdefinite => h.again hdefinite more hmore }

end Request

/-! ## Any number of requests -/

/-- The pool after some requests. -/
def after (pool : ConstantPool) (requests : List Request) : ConstantPool :=
  requests.foldl (fun pool request => (request.perform.run pool).2) pool

theorem after_append (pool : ConstantPool) (before later : List Request) :
    pool.after (before ++ later) = (pool.after before).after later :=
  List.foldl_append

theorem after_cons (pool : ConstantPool) (request : Request) (later : List Request) :
    pool.after (request :: later) = (request.perform.run pool).2.after later :=
  rfl

/-- Requests only add constants. -/
theorem after_ofItems (requests : List Request) (items : List Constant) :
    ∃ later, (ofItems items).after requests = ofItems later ∧ items <+: later := by
  induction requests generalizing items with
  | nil => exact ⟨items, rfl, List.prefix_refl items⟩
  | cons request requests ih =>
    obtain ⟨index, between, c, hsettled⟩ := request.settled items
    obtain ⟨later, hlater, hextend⟩ := ih between
    refine ⟨later, ?_, hsettled.extend.trans hextend⟩
    rw [after_cons, hsettled.run, hlater]

/-- Pools to begin with. -/
inductive Obtained : ConstantPool → Prop where
  | new : Obtained .empty
  | read {pool : ConstantPool} {bytes rest : List UInt8}
      (h : (Serial.read : Reader ConstantPool).on bytes = .ok (pool, rest)) : Obtained pool

theorem Obtained.exists_ofItems (h : pool.Obtained) : ∃ items, pool = ofItems items := by
  cases h with
  | new => exact ⟨[], rfl⟩
  | read h =>
    have hpool := (gives_read h).1
    refine ⟨pool.constants.items, congrArg ConstantPool.mk ?_⟩
    rw [← hpool.start]
    exact hpool.laid.tiles

theorem sum_width_le (items : List Constant) : (items.map width).sum ≤ 2 * items.length := by
  induction items with
  | nil => exact Nat.le_refl 0
  | cons c items ih =>
    have hwidth := c.width_le
    rw [List.map_cons, List.sum_cons, List.length_cons]
    omega

/-- An array has fewer elements than would bring offsets around to small ones again. -/
theorem inRange_of_stop (hstop : (ofItems items).constants.stop ≤ 65536)
    (hsize : (ofItems items).constants.size < 2 ^ 63) : InRange items := by
  rw [ofItems, Tiling.size_ofList] at hsize
  have hsum := sum_width_le items
  rw [ofItems, (Tiling.offsets_ofList (by decide) items).1, Tiling.offsetAt_length, Word.wrap_of_lt (by omega)] at hstop
  exact hstop

/-- Whatever is asked of a pool, and in whatever order: as long as there are indices, each request gives one that leads
to what was asked for, then and at any later time; no constant moves; what is asked for again is found where it is; and
the numbers between constants stay empty.  (No array has `2 ^ 63` elements.) -/
theorem requests_kept {origin : ConstantPool} (horigin : origin.Obtained) (requests : List Request)
    (hstop : (origin.after requests).constants.stop ≤ 65536)
    (hsize : (origin.after requests).constants.size < 2 ^ 63) :
    (∀ before, before <+: requests → (origin.after before).Gapped) ∧
      ∀ before request later, before ++ request :: later <+: requests →
        let pool := origin.after before
        let next := origin.after (before ++ request :: later)
        request.Kept (request.perform.run pool).1 next ∧
          ∀ index c, pool.get? index = some c → next.get? index = some c := by
  obtain ⟨items, rfl⟩ := horigin.exists_ofItems
  -- there are indices at the end, hence there were at any time before
  have hrange : ∀ {before : List Request} {between : List Constant}, before <+: requests →
      (ofItems items).after before = ofItems between → InRange between := by
    rintro before between ⟨rest, rfl⟩ hbetween
    obtain ⟨final, hfinal, hextend⟩ := after_ofItems rest between
    rw [after_append, hbetween, hfinal] at hstop hsize
    exact (inRange_of_stop hstop hsize).earlier hextend
  refine ⟨fun before hbefore => ?_, fun before request later hlater => ?_⟩
  · obtain ⟨between, hbetween, -⟩ := after_ofItems before items
    rw [hbetween]
    exact (hrange hbefore hbetween).gapped
  · obtain ⟨start, hstart, -⟩ := after_ofItems before items
    obtain ⟨index, between, c, hsettled⟩ := request.settled start
    obtain ⟨final, hfinal, hextend⟩ := after_ofItems later between
    have hnext : (ofItems items).after (before ++ request :: later) = ofItems final := by
      rw [after_append, after_cons, hstart, hsettled.run, hfinal]
    have hfits := hrange hlater hnext
    intro pool next
    rw [show pool = ofItems start from hstart, show next = ofItems final from hnext, hsettled.run]
    exact ⟨hsettled.kept hextend hfits, fun index c => hfits.get?_mono (hsettled.extend.trans hextend)⟩

/-- Constants of both widths, one of them asked for twice with the other sign of zero. -/
theorem requests_kept_of_zeros :
    (Request.method "A" "f" "()V" false).Kept 8
        (empty.after [.constant (.double 0), .method "A" "f" "()V" false, .constant (.double 0x8000000000000000)]) ∧
      (Request.constant (.double 0x8000000000000000)).Kept 1
        (empty.after [.constant (.double 0), .method "A" "f" "()V" false, .constant (.double 0x8000000000000000)]) := by
  have hkept := requests_kept .new [.constant (.double 0), .method "A" "f" "()V" false,
    .constant (.double 0x8000000000000000)] (by decide +kernel) (by decide +kernel)
  exact ⟨(hkept.2 [.constant (.double 0)] _ [.constant (.double 0x8000000000000000)] (by simp)).1,
    (hkept.2 [.constant (.double 0), .method "A" "f" "()V" false] _ [] (by simp)).1⟩

end ConstantPool

end Bytecode
