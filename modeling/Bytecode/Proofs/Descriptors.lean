import Bytecode.Descriptor.Parser
import Bytecode.Proofs.Outcomes

/-!
# Descriptors are read as they are written

Every type has one text, and every text is that of at most one type.  The dimensions of an array are counted in a
word: the array type with the greatest count of further dimensions is written without any bracket, and is the one
exception (`Descriptor.greatest_array_lost`).

* `Descriptor.Grammar`: the texts of class names, references, fields and methods, by rules that do not mention readers;
* `Descriptor.ReadsExactly`: a reader takes off the front of a text exactly what is written for a value, whatever
  follows; `Descriptor.ReadsCounted` is the same for readers that count dimensions, from references up to methods;
* `Descriptor.descriptors_exact`: reading and writing whole texts are inverse, and exactly the texts of the grammar can
  be read.
-/

namespace Bytecode

namespace Descriptor

variable {cs rest : List Char}

/-! ## The grammar -/

namespace Grammar

/-- A part of a class name: it is not empty, and has no character with a meaning of its own. -/
def IsPart (cs : List Char) : Prop := cs ≠ [] ∧ ∀ c ∈ cs, c ≠ '.' ∧ c ≠ ';' ∧ c ≠ '[' ∧ c ≠ '/'

/-- Class names: parts with slashes between them. -/
inductive ClassName : List Char → Prop
  | last {cs : List Char} (hpart : IsPart cs) : ClassName cs
  | more {cs rest : List Char} (hpart : IsPart cs) (hrest : ClassName rest) : ClassName (cs ++ '/' :: rest)

/-- Types of fields: a letter or a class, with any number of brackets in front. -/
inductive Field : List Char → Prop
  | letter {c : Char} (hletter : c ∈ ['B', 'C', 'D', 'F', 'I', 'J', 'S', 'Z']) : Field [c]
  | object {name : List Char} (hname : ClassName name) : Field ('L' :: (name ++ [';']))
  | array {cs : List Char} (helement : Field cs) : Field ('[' :: cs)

/-- Array types: a bracket in front of the type of the elements. -/
inductive ArrayType : List Char → Prop
  | array {cs : List Char} (helement : Field cs) : ArrayType ('[' :: cs)

/-- Reference types: classes and arrays. -/
inductive Reference : List Char → Prop
  | object {name : List Char} (hname : ClassName name) : Reference ('L' :: (name ++ [';']))
  | array {cs : List Char} (harray : ArrayType cs) : Reference cs

/-- Types of fields one after the other. -/
inductive Fields : List Char → Prop
  | nil : Fields []
  | cons {cs rest : List Char} (hfield : Field cs) (hrest : Fields rest) : Fields (cs ++ rest)

/-- Methods: parameters between parentheses, then a result, which alone can be `V`. -/
inductive Method : List Char → Prop
  | void {ps : List Char} (hparameters : Fields ps) : Method ('(' :: (ps ++ [')', 'V']))
  | value {ps cs : List Char} (hparameters : Fields ps) (hresult : Field cs) : Method ('(' :: (ps ++ ')' :: cs))

end Grammar

/-! ## Names -/

open Grammar

theorem isUnqualified_iff : Name.isUnqualified cs = true ↔ IsPart cs := by
  simp [Name.isUnqualified, Name.isReserved, IsPart, and_assoc]

/-- A text without a slash is its only part. -/
theorem segments_of_not_mem (h : '/' ∉ cs) : Name.segments cs = [cs] := by
  induction cs with
  | nil => rfl
  | cons c cs ih =>
    simp only [List.mem_cons, not_or] at h
    obtain ⟨hc, hcs⟩ := h
    rw [Name.segments, if_neg (Ne.symm hc), ih hcs]

/-- What stands before the first slash is the first part. -/
theorem segments_append (h : '/' ∉ cs) (rest : List Char) :
    Name.segments (cs ++ '/' :: rest) = cs :: Name.segments rest := by
  induction cs with
  | nil => simp [Name.segments]
  | cons c cs ih =>
    simp only [List.mem_cons, not_or] at h
    obtain ⟨hc, hcs⟩ := h
    rw [List.cons_append, Name.segments, if_neg (Ne.symm hc), ih hcs]

theorem Grammar.IsPart.not_mem (h : IsPart cs) : '/' ∉ cs ∧ ';' ∉ cs :=
  ⟨fun hmem => (h.2 _ hmem).2.2.2 rfl, fun hmem => (h.2 _ hmem).2.1 rfl⟩

/-- The check of class names follows their grammar. -/
theorem isBinary_iff : Name.isBinary cs = true ↔ ClassName cs := by
  constructor
  · -- from slash to slash
    induction hlength : cs.length using Nat.strongRecOn generalizing cs with
    | ind length ih =>
      intro h
      by_cases hslash : '/' ∈ cs
      · obtain ⟨front, rest, rfl, hfront⟩ := List.eq_append_cons_of_mem hslash
        rw [Name.isBinary, segments_append hfront, List.all_cons, Bool.and_eq_true, isUnqualified_iff] at h
        refine .more h.1 (ih rest.length ?_ rfl h.2)
        rw [← hlength, List.length_append, List.length_cons]
        omega
      · rw [Name.isBinary, segments_of_not_mem hslash, List.all_cons, List.all_nil, Bool.and_true,
          isUnqualified_iff] at h
        exact .last h
  · intro h
    induction h with
    | last hpart =>
      rw [Name.isBinary, segments_of_not_mem hpart.not_mem.1, List.all_cons, List.all_nil, Bool.and_true]
      exact isUnqualified_iff.mpr hpart
    | more hpart hrest ih =>
      rw [Name.isBinary, segments_append hpart.not_mem.1, List.all_cons, Bool.and_eq_true]
      exact ⟨isUnqualified_iff.mpr hpart, ih⟩

theorem Grammar.ClassName.not_mem (h : ClassName cs) : ';' ∉ cs := by
  induction h with
  | last hpart => exact hpart.not_mem.2
  | more hpart hrest ih => simp [hpart.not_mem.2, ih]

/-- A class name does not look like an array. -/
theorem Grammar.ClassName.head_ne {c : Char} (h : ClassName (c :: cs)) : c ≠ '[' := by
  generalize htext : c :: cs = text at h
  cases h with
  | last hpart => exact (hpart.2 c (htext ▸ List.mem_cons_self)).2.2.1
  | @more front rest hpart hrest =>
    obtain ⟨hsome, hchars⟩ := hpart
    cases front with
    | nil => exact absurd rfl hsome
    | cons d front =>
      obtain ⟨rfl, -⟩ := List.cons.inj htext
      exact (hchars c List.mem_cons_self).2.2.1

/-- Checking a name keeps its text. -/
theorem ofString_eq_ok {text : String} {name : BinaryName} :
    BinaryName.ofString text = .ok name ↔ name.text = text := by
  constructor
  · intro h
    unfold BinaryName.ofString at h
    split at h
    · rw [← Except.ok.inj h]
    · simp at h
  · rintro rfl
    exact BinaryName.ofString_text name

theorem className_text (name : BinaryName) : ClassName name.text.toList := isBinary_iff.mp name.valid

/-! ## Readers -/

/-- A reader takes off exactly the characters of a value, whatever follows them. -/
def ReadsExactly {α : Type} (read : Reader α) (chars : α → List Char) : Prop :=
  ∀ (cs : List Char) (a : α) (rest : List Char), read cs = .ok (a, rest) ↔ cs = chars a ++ rest

theorem ofLetter?_eq_some {c : Char} {b : BaseType} : BaseType.ofLetter? c = some b ↔ b.letter = c := by
  constructor
  · exact BaseType.letter_of_ofLetter?
  · rintro rfl
    exact b.ofLetter?_letter

theorem base_exact : ReadsExactly base BaseType.chars := by
  intro cs b rest
  cases cs with
  | nil => simp [base, BaseType.chars]
  | cons c cs =>
    rw [base]
    cases hletter : BaseType.ofLetter? c with
    | none =>
      have hne : b.letter ≠ c := fun h => by simp [ofLetter?_eq_some.mpr h] at hletter
      simp [BaseType.chars, Ne.symm hne]
    | some found =>
      obtain rfl := ofLetter?_eq_some.mp hletter
      have hinj : found = b ↔ found.letter = b.letter := by
        constructor
        · rintro rfl
          rfl
        · intro h
          rw [← Option.some_inj, ← found.ofLetter?_letter, h, b.ofLetter?_letter]
      simp [BaseType.chars, hinj]

/-- Letters of primitive types mean nothing else in a descriptor. -/
theorem letter_ne (b : BaseType) : b.letter ≠ 'L' ∧ b.letter ≠ '[' ∧ b.letter ≠ ')' ∧ b.letter ≠ 'V' := by
  cases b <;> decide

/-- A name ends at the first semicolon. -/
theorem className_exact : ReadsExactly className BinaryName.chars := by
  intro cs name rest
  constructor
  · intro h
    unfold className at h
    split at h
    · rename_i cs
      split at h
      · simp at h
      · rename_i c behind hdrop
        split at h
        · rename_i found hname
          obtain ⟨rfl, rfl⟩ := Prod.mk.inj (Except.ok.inj h)
          obtain rfl : c = ';' := by simpa [hdrop] using List.head?_dropWhile_not (· != ';') cs
          rw [BinaryName.chars, ofString_eq_ok.mp hname, String.toList_ofList, List.cons_append, List.append_assoc,
            List.singleton_append, ← hdrop, List.takeWhile_append_dropWhile]
        · simp at h
    · simp at h
  · rintro rfl
    have hname : ∀ c ∈ name.text.toList, (c != ';') = true := by
      intro c hc
      exact bne_iff_ne.mpr fun h => (className_text name).not_mem (h ▸ hc)
    have htext : name.chars ++ rest = 'L' :: (name.text.toList ++ ';' :: rest) := by
      simp [BinaryName.chars]
    rw [htext, className, List.takeWhile_append_of_pos hname, List.dropWhile_append_of_pos hname]
    simp [BinaryName.ofString_text]

theorem element_exact : ReadsExactly element ElementType.chars := by
  intro cs e rest
  unfold element
  split
  · rename_i cs
    rw [read_map_eq_ok]
    simp only [className_exact _ _ _]
    cases e with
    | object name => simp [ElementType.chars]
    | base b => simp [ElementType.chars, BaseType.chars, (letter_ne b).1.symm]
  · rename_i hnot
    rw [read_map_eq_ok]
    simp only [base_exact _ _ _]
    cases e with
    | object name =>
      have hne : cs ≠ name.chars ++ rest := hnot (name.text.toList ++ [';'] ++ rest)
      simp [ElementType.chars, hne]
    | base b => simp [ElementType.chars]

/-- What an array has in it does not start with a bracket. -/
theorem element_chars (e : ElementType) : ∃ c cs, e.chars = c :: cs ∧ c ≠ '[' := by
  cases e with
  | object name => exact ⟨'L', _, rfl, by decide⟩
  | base b => exact ⟨b.letter, [], rfl, (letter_ne b).2.1⟩

/-! ## Readers that count dimensions -/

/-- A text has fewer characters than there are words, as all texts in memory. -/
def InMemory (cs : List Char) : Prop := cs.length < 0x10000000000000000

theorem InMemory.of_append {front : List Char} (h : InMemory (front ++ cs)) : InMemory front ∧ InMemory cs := by
  unfold InMemory at *
  rw [List.length_append] at h
  omega

theorem InMemory.of_cons {c : Char} (h : InMemory (c :: cs)) : InMemory cs := Nat.lt_of_succ_lt h

/-- A reader of types with dimensions: it takes off the characters of each value whose dimensions are counted, and
gives no other values; in a text that is in memory, it takes off nothing else. -/
structure ReadsCounted {α : Type} (read : Reader α) (chars : α → List Char) (IsCounted : α → Prop) : Prop where
  reads : ∀ (a : α) (rest : List Char), IsCounted a → read (chars a ++ rest) = .ok (a, rest)
  sound : ∀ (cs : List Char) (a : α) (rest : List Char), read cs = .ok (a, rest) →
    IsCounted a ∧ (InMemory cs → cs = chars a ++ rest)

theorem takeWhile_brackets (n : Nat) (e : ElementType) (rest : List Char) :
    (List.replicate n '[' ++ e.chars ++ rest).takeWhile (· == '[') = List.replicate n '[' ∧
      (List.replicate n '[' ++ e.chars ++ rest).dropWhile (· == '[') = e.chars ++ rest := by
  obtain ⟨c, tail, hchars, hc⟩ := element_chars e
  have hall : ∀ c ∈ List.replicate n '[', (c == '[') = true := by
    intro c hc
    rw [List.eq_of_mem_replicate hc]
    rfl
  rw [List.append_assoc, List.takeWhile_append_of_pos hall, List.dropWhile_append_of_pos hall, hchars]
  simp [hc]

/-- All brackets in front are counted. -/
theorem reference_counted : ReadsCounted reference RefType.chars RefType.IsCounted where
  reads r rest hcounted := by
    cases r with
    | object name =>
      obtain ⟨htake, hdrop⟩ := takeWhile_brackets 0 (.object name) rest
      have hname : className (name.chars ++ rest) = .ok (name, rest) := (className_exact _ _ _).mpr rfl
      simp only [List.replicate_zero, List.nil_append, ElementType.chars] at htake hdrop
      simp only [reference, RefType.chars, htake, hdrop, List.length_nil]
      rw [if_pos (show UInt64.ofNat 0 = 0 from rfl)]
      simp only [BinaryName.chars, List.cons_append] at hname ⊢
      rw [hname]
      rfl
    | array extra e =>
      obtain ⟨htake, hdrop⟩ := takeWhile_brackets (extra + 1).toNat e rest
      have he : element (e.chars ++ rest) = .ok (e, rest) := (element_exact _ _ _).mpr rfl
      have hmore : extra + 1 ≠ 0 := hcounted
      simp only [reference, RefType.chars, htake, hdrop, List.length_replicate, UInt64.ofNat_toNat]
      rw [if_neg hmore, he, UInt64.add_sub_cancel]
      rfl
  sound cs r rest h := by
    have hsplit := List.takeWhile_append_dropWhile (p := (· == '[')) (l := cs)
    have hbrackets : cs.takeWhile (· == '[') = List.replicate (cs.takeWhile (· == '[')).length '[' :=
      List.eq_replicate_of_mem fun c hc => by simpa using List.all_eq_true.mp List.all_takeWhile c hc
    have hcount : InMemory cs →
        (UInt64.ofNat (cs.takeWhile (· == '[')).length).toNat = (cs.takeWhile (· == '[')).length := fun hmemory =>
      UInt64.toNat_ofNat_of_lt (Nat.lt_of_le_of_lt (List.takeWhile_prefix _).length_le hmemory)
    simp only [reference] at h
    split at h
    · rename_i hnone
      rw [hnone] at hcount
      split at h
      · obtain ⟨name, hname, rfl⟩ := read_map_eq_ok.mp h
        rw [className_exact] at hname
        refine ⟨trivial, fun hmemory => ?_⟩
        rw [← hsplit, List.eq_nil_of_length_eq_zero (hcount hmemory).symm, hname]
        rfl
      · simp at h
    · rename_i hmore
      obtain ⟨e, he, rfl⟩ := read_map_eq_ok.mp h
      rw [element_exact] at he
      rw [RefType.IsCounted, RefType.chars, UInt64.sub_add_cancel]
      refine ⟨hmore, fun hmemory => ?_⟩
      rw [hcount hmemory, ← hbrackets, List.append_assoc, ← he, hsplit]

theorem array_chars {extra : UInt64} {e : ElementType} (h : (RefType.array extra e).IsCounted) :
    ∃ n, (RefType.array extra e).chars = '[' :: (List.replicate n '[' ++ e.chars) := by
  obtain ⟨n, hn⟩ := Nat.exists_eq_succ_of_ne_zero fun hzero => h (UInt64.toNat_inj.mp hzero)
  exact ⟨n, by rw [RefType.chars, hn, List.replicate_succ, List.cons_append]⟩

theorem reference_chars {r : RefType} (h : r.IsCounted) : ∃ c cs, r.chars = c :: cs ∧ (c = 'L' ∨ c = '[') := by
  cases r with
  | object name => exact ⟨'L', _, rfl, .inl rfl⟩
  | array extra e =>
    obtain ⟨n, hchars⟩ := array_chars h
    exact ⟨'[', _, hchars, .inr rfl⟩

theorem field_counted : ReadsCounted field FieldType.chars FieldType.IsCounted where
  reads t rest hcounted := by
    cases t with
    | base b =>
      have hbase : base (b.chars ++ rest) = .ok (b, rest) := (base_exact _ _ _).mpr rfl
      simp only [FieldType.chars, BaseType.chars, List.singleton_append] at hbase ⊢
      unfold field
      split
      · rename_i hletter
        exact absurd (List.cons.inj hletter).1 (letter_ne b).1
      · rename_i hletter
        exact absurd (List.cons.inj hletter).1 (letter_ne b).2.1
      · rw [hbase]
        rfl
    | ref r =>
      have hreference := reference_counted.reads r rest hcounted
      obtain ⟨c, tail, hchars, hc⟩ := reference_chars hcounted
      simp only [FieldType.chars, hchars, List.cons_append] at hreference ⊢
      rcases hc with rfl | rfl <;> rw [field, hreference] <;> rfl
  sound cs t rest h := by
    unfold field at h
    split at h
    · obtain ⟨r, hr, rfl⟩ := read_map_eq_ok.mp h
      exact reference_counted.sound _ _ _ hr
    · obtain ⟨r, hr, rfl⟩ := read_map_eq_ok.mp h
      exact reference_counted.sound _ _ _ hr
    · obtain ⟨b, hb, rfl⟩ := read_map_eq_ok.mp h
      exact ⟨trivial, fun _ => (base_exact _ _ _).mp hb⟩

/-- A type is not taken for the end of the parameters or for the missing result. -/
theorem field_chars {t : FieldType} (h : t.IsCounted) : ∃ c cs, t.chars = c :: cs ∧ c ≠ ')' ∧ c ≠ 'V' := by
  cases t with
  | base b => exact ⟨b.letter, [], rfl, (letter_ne b).2.2⟩
  | ref r =>
    obtain ⟨c, cs, hchars, rfl | rfl⟩ := reference_chars h
    · exact ⟨'L', cs, hchars, by decide, by decide⟩
    · exact ⟨'[', cs, hchars, by decide, by decide⟩

theorem parameters_counted :
    ReadsCounted parameters (fun ts => ts.flatMap FieldType.chars ++ [')']) fun ts => ∀ t ∈ ts, t.IsCounted where
  reads ts rest hcounted := by
    induction ts with
    | nil => simp [parameters]
    | cons t ts ih =>
      obtain ⟨ht, hts⟩ := List.forall_mem_cons.mp hcounted
      obtain ⟨c, tail, hchars, hclose, -⟩ := field_chars ht
      have hfield := field_counted.reads t (ts.flatMap FieldType.chars ++ [')'] ++ rest) ht
      have htext : (t :: ts).flatMap FieldType.chars ++ [')'] ++ rest =
          c :: (tail ++ (ts.flatMap FieldType.chars ++ [')'] ++ rest)) := by
        simp [hchars]
      rw [hchars, List.cons_append] at hfield
      rw [htext, parameters, if_neg hclose]
      split
      · rename_i e herror
        exact absurd (hfield.symm.trans herror) (by simp)
      · rename_i t' behind hok
        obtain ⟨rfl, rfl⟩ := Prod.mk.inj (Except.ok.inj (hfield.symm.trans hok))
        rw [ih hts]
  sound cs ts rest h := by
    fun_induction parameters cs generalizing ts rest with
    | case1 => simp at h
    | case2 cs =>
      obtain ⟨rfl, rfl⟩ := Prod.mk.inj (Except.ok.inj h)
      exact ⟨by simp, fun _ => rfl⟩
    | case3 => simp at h
    | case4 => simp at h
    | case5 c cs hclose t behind hfield ts' behind' hparameters ih =>
      obtain ⟨rfl, rfl⟩ := Prod.mk.inj (Except.ok.inj h)
      obtain ⟨ht, hfront⟩ := field_counted.sound _ _ _ hfield
      obtain ⟨hts, hbehind⟩ := ih _ _ hparameters
      refine ⟨List.forall_mem_cons.mpr ⟨ht, hts⟩, fun hmemory => ?_⟩
      have htext := hfront hmemory
      rw [htext] at hmemory ⊢
      rw [hbehind hmemory.of_append.2]
      simp

theorem result_counted :
    ReadsCounted result (fun r => r.elim ['V'] FieldType.chars) fun r => ∀ t ∈ r, t.IsCounted where
  reads r rest hcounted := by
    cases r with
    | none => rfl
    | some t =>
      have ht := hcounted t rfl
      obtain ⟨c, tail, hchars, -, hvoid⟩ := field_chars ht
      have hfield := field_counted.reads t rest ht
      simp only [Option.elim_some, hchars, List.cons_append] at hfield ⊢
      unfold result
      split
      · rename_i hletter
        exact absurd (List.cons.inj hletter).1 hvoid
      · rw [hfield]
        rfl
  sound cs r rest h := by
    unfold result at h
    split at h
    · obtain ⟨rfl, rfl⟩ := Prod.mk.inj (Except.ok.inj h)
      exact ⟨by simp, fun _ => rfl⟩
    · obtain ⟨t, ht, rfl⟩ := read_map_eq_ok.mp h
      simpa using field_counted.sound _ _ _ ht

theorem method_counted : ReadsCounted method MethodDescriptor.chars MethodDescriptor.IsCounted where
  reads d rest hcounted := by
    have hparameters := parameters_counted.reads d.parameters (d.returnType.elim ['V'] FieldType.chars ++ rest) hcounted.1
    have hresult := result_counted.reads d.returnType rest hcounted.2
    have htext : d.chars ++ rest = '(' :: (d.parameters.flatMap FieldType.chars ++ [')'] ++
        (d.returnType.elim ['V'] FieldType.chars ++ rest)) := by
      simp [MethodDescriptor.chars]
    rw [htext, method]
    simp only [hparameters, hresult, bind, Except.bind]
    rfl
  sound cs d rest h := by
    unfold method at h
    split at h
    · rename_i front
      simp only [bind_eq_ok, pure_eq_ok, Prod.exists] at h
      obtain ⟨ts, behind, hparameters, r, rest', hresult, hd⟩ := h
      obtain ⟨rfl, rfl⟩ := Prod.mk.inj hd
      obtain ⟨hts, hfront⟩ := parameters_counted.sound _ _ _ hparameters
      obtain ⟨hr, hbehind⟩ := result_counted.sound _ _ _ hresult
      refine ⟨⟨hts, hr⟩, fun hmemory => ?_⟩
      have hmemory := hmemory.of_cons
      have htext := hfront hmemory
      rw [htext] at hmemory ⊢
      rw [hbehind hmemory.of_append.2]
      simp [MethodDescriptor.chars]
    · simp at h

/-! ## Texts of types -/

theorem className_iff : ClassName cs ↔ ∃ name : BinaryName, cs = name.text.toList := by
  constructor
  · intro h
    have hvalid : Name.isBinary (String.ofList cs).toList = true := by
      rw [String.toList_ofList]
      exact isBinary_iff.mpr h
    exact ⟨⟨String.ofList cs, hvalid⟩, String.toList_ofList.symm⟩
  · rintro ⟨name, rfl⟩
    exact className_text name

theorem letter_iff {c : Char} : c ∈ ['B', 'C', 'D', 'F', 'I', 'J', 'S', 'Z'] ↔ ∃ b : BaseType, c = b.letter := by
  constructor
  · intro h
    have hall : (['B', 'C', 'D', 'F', 'I', 'J', 'S', 'Z'].all fun c => (BaseType.ofLetter? c).isSome) = true := rfl
    obtain ⟨b, hb⟩ := Option.isSome_iff_exists.mp (List.all_eq_true.mp hall c h)
    exact ⟨b, (ofLetter?_eq_some.mp hb).symm⟩
  · rintro ⟨b, rfl⟩
    cases b <;> decide

/-- Types of fields: any number of brackets, then what is no array. -/
theorem field_iff : Field cs ↔ ∃ n, ∃ e : ElementType, cs = List.replicate n '[' ++ e.chars := by
  constructor
  · intro h
    induction h with
    | letter hletter =>
      obtain ⟨b, rfl⟩ := letter_iff.mp hletter
      exact ⟨0, .base b, rfl⟩
    | object hname =>
      obtain ⟨name, rfl⟩ := className_iff.mp hname
      exact ⟨0, .object name, rfl⟩
    | array helement ih =>
      obtain ⟨n, e, rfl⟩ := ih
      exact ⟨n + 1, e, rfl⟩
  · rintro ⟨n, e, rfl⟩
    induction n with
    | zero =>
      cases e with
      | object name => exact .object (className_text name)
      | base b => exact .letter (letter_iff.mpr ⟨b, rfl⟩)
    | succ n ih => exact .array ih

theorem field_text (t : FieldType) : Field t.chars := by
  rw [field_iff]
  cases t with
  | base b => exact ⟨0, .base b, rfl⟩
  | ref r =>
    cases r with
    | object name => exact ⟨0, .object name, rfl⟩
    | array extra e => exact ⟨_, e, rfl⟩

theorem arrayType_text {extra : UInt64} {e : ElementType} (h : (RefType.array extra e).IsCounted) :
    ArrayType (RefType.array extra e).chars := by
  obtain ⟨n, hchars⟩ := array_chars h
  rw [hchars]
  exact .array (field_iff.mpr ⟨n, e, rfl⟩)

theorem reference_text {r : RefType} (h : r.IsCounted) : Reference r.chars := by
  cases r with
  | object name => exact .object (className_text name)
  | array extra e => exact .array (arrayType_text h)

theorem method_text (d : MethodDescriptor) : Method d.chars := by
  have hparameters : ∀ ts : List FieldType, Fields (ts.flatMap FieldType.chars) := by
    intro ts
    induction ts with
    | nil => exact .nil
    | cons t ts ih => exact .cons (field_text t) ih
  obtain ⟨ts, r⟩ := d
  cases r with
  | none => exact .void (hparameters ts)
  | some t => exact .value (hparameters ts) (field_text t)

/-! The brackets of a text in memory can be counted. -/

/-- So many brackets are those of an array type. -/
theorem exists_array {n : Nat} (e : ElementType) (h : n + 1 < 0x10000000000000000) :
    ∃ extra, (RefType.array extra e).IsCounted ∧ (RefType.array extra e).chars = List.replicate (n + 1) '[' ++ e.chars := by
  have hn : (UInt64.ofNat n).toNat = n := UInt64.toNat_ofNat_of_lt (Nat.lt_of_succ_lt h)
  have hcount : (UInt64.ofNat n + 1).toNat = n + 1 := by
    rw [UInt64.toNat_add, hn]
    exact Nat.mod_eq_of_lt h
  refine ⟨.ofNat n, fun hzero => ?_, by rw [RefType.chars, hcount]⟩
  rw [hzero] at hcount
  exact absurd hcount (by simp)

theorem exists_arrayType (hmemory : InMemory cs) (h : ArrayType cs) :
    ∃ extra e, (RefType.array extra e).IsCounted ∧ (RefType.array extra e).chars = cs := by
  obtain ⟨helement⟩ := h
  obtain ⟨n, e, rfl⟩ := field_iff.mp helement
  simp only [InMemory, List.length_cons, List.length_append, List.length_replicate] at hmemory
  obtain ⟨extra, hcounted, hchars⟩ := exists_array e (n := n) (by omega)
  exact ⟨extra, e, hcounted, hchars⟩

theorem exists_reference (hmemory : InMemory cs) (h : Reference cs) :
    ∃ r : RefType, r.IsCounted ∧ r.chars = cs := by
  cases h with
  | object hname =>
    obtain ⟨name, rfl⟩ := className_iff.mp hname
    exact ⟨.object name, trivial, rfl⟩
  | array harray =>
    obtain ⟨extra, e, hcounted, hchars⟩ := exists_arrayType hmemory harray
    exact ⟨_, hcounted, hchars⟩

theorem exists_field (hmemory : InMemory cs) (h : Field cs) :
    ∃ t : FieldType, t.IsCounted ∧ t.chars = cs := by
  cases h with
  | letter hletter =>
    obtain ⟨b, rfl⟩ := letter_iff.mp hletter
    exact ⟨.base b, trivial, rfl⟩
  | object hname =>
    obtain ⟨r, hcounted, hchars⟩ := exists_reference hmemory (.object hname)
    exact ⟨.ref r, hcounted, hchars⟩
  | array helement =>
    obtain ⟨r, hcounted, hchars⟩ := exists_reference hmemory (.array (.array helement))
    exact ⟨.ref r, hcounted, hchars⟩

theorem exists_fields (hmemory : InMemory cs) (h : Fields cs) :
    ∃ ts : List FieldType, (∀ t ∈ ts, t.IsCounted) ∧ ts.flatMap FieldType.chars = cs := by
  induction h with
  | nil => exact ⟨[], by simp, rfl⟩
  | cons hfield hrest ih =>
    obtain ⟨t, ht, rfl⟩ := exists_field hmemory.of_append.1 hfield
    obtain ⟨ts, hts, rfl⟩ := ih hmemory.of_append.2
    exact ⟨t :: ts, List.forall_mem_cons.mpr ⟨ht, hts⟩, rfl⟩

theorem exists_method (hmemory : InMemory cs) (h : Method cs) : ∃ d : MethodDescriptor, d.IsCounted ∧ d.chars = cs := by
  cases h with
  | void hparameters =>
    obtain ⟨ts, hts, rfl⟩ := exists_fields hmemory.of_cons.of_append.1 hparameters
    exact ⟨⟨ts, none⟩, ⟨hts, by simp⟩, rfl⟩
  | value hparameters hresult =>
    obtain ⟨hfront, hbehind⟩ := hmemory.of_cons.of_append
    obtain ⟨ts, hts, rfl⟩ := exists_fields hfront hparameters
    obtain ⟨t, ht, rfl⟩ := exists_field hbehind.of_cons hresult
    exact ⟨⟨ts, some t⟩, ⟨hts, by simpa using ht⟩, rfl⟩

/-! ## Complete descriptors -/

/-- Reading gives back exactly the counted values from their texts, no text in memory is read as something with
another text, and exactly the given texts among them can be read. -/
structure Exact {α : Type} (parse : String → Except DescriptorError α) (render : α → String) (IsCounted : α → Prop)
    (Text : List Char → Prop) : Prop where
  parse_render : ∀ a, parse (render a) = .ok a ↔ IsCounted a
  render_of_parse : ∀ text a, InMemory text.toList → parse text = .ok a → render a = text
  accepts_iff : ∀ text : String, InMemory text.toList → ((∃ a, parse text = .ok a) ↔ Text text.toList)

theorem complete_eq_ok {α : Type} {read : Reader α} {text : String} {a : α} :
    complete read text = .ok a ↔ read text.toList = .ok (a, []) := by
  unfold complete
  cases read text.toList with
  | error e => simp
  | ok found =>
    obtain ⟨b, rest⟩ := found
    cases rest <;> simp

/-- A reader that takes off exactly what is written reads exactly the texts that are written. -/
theorem ReadsCounted.exact {α : Type} {read : Reader α} {chars : α → List Char} {IsCounted : α → Prop}
    {Text : List Char → Prop} (h : ReadsCounted read chars IsCounted) (htext : ∀ a, IsCounted a → Text (chars a))
    (hexists : ∀ cs, InMemory cs → Text cs → ∃ a, IsCounted a ∧ chars a = cs) :
    Exact (complete read) (fun a => String.ofList (chars a)) IsCounted Text := by
  have hreads : ∀ a, IsCounted a → complete read (String.ofList (chars a)) = .ok a := by
    intro a ha
    rw [complete_eq_ok, String.toList_ofList, ← h.reads a [] ha, List.append_nil]
  have hsound : ∀ (text : String) (a : α), complete read text = .ok a →
      IsCounted a ∧ (InMemory text.toList → text.toList = chars a) := by
    intro text a hparse
    simpa using h.sound _ _ _ (complete_eq_ok.mp hparse)
  refine ⟨fun a => ⟨fun hparse => (hsound _ a hparse).1, hreads a⟩, ?_, ?_⟩
  · intro text a hmemory hparse
    rw [← (hsound text a hparse).2 hmemory, String.ofList_toList]
  · intro text hmemory
    constructor
    · rintro ⟨a, hparse⟩
      obtain ⟨hcounted, hchars⟩ := hsound text a hparse
      rw [hchars hmemory]
      exact htext a hcounted
    · intro ht
      obtain ⟨a, ha, hchars⟩ := hexists _ hmemory ht
      refine ⟨a, ?_⟩
      rw [← hreads a ha, hchars, String.ofList_toList]

theorem reference_exact : Exact RefType.ofDescriptor RefType.render RefType.IsCounted Reference :=
  reference_counted.exact (fun _ => reference_text) fun _ => exists_reference

/-- A class constant is read as a descriptor or as a name, by its first character. -/
theorem ofConstantName_eq_ok {text : String} {r : RefType} (h : RefType.ofConstantName text = .ok r) :
    (RefType.ofDescriptor text = .ok r ∧ ∃ cs, text.toList = '[' :: cs) ∨ ∃ name, r = .object name ∧ name.text = text := by
  unfold RefType.ofConstantName at h
  split at h
  · rename_i cs htext
    exact .inl ⟨h, cs, htext⟩
  · split at h
    · rename_i name hname
      exact .inr ⟨name, (Except.ok.inj h).symm, ofString_eq_ok.mp hname⟩
    · simp at h

theorem ofConstantName_text (name : BinaryName) : RefType.ofConstantName name.text = .ok (.object name) := by
  unfold RefType.ofConstantName
  split
  · rename_i cs htext
    exact absurd rfl (htext ▸ className_text name).head_ne
  · rw [BinaryName.ofString_text]

theorem ofConstantName_render {extra : UInt64} {e : ElementType} (h : (RefType.array extra e).IsCounted) :
    RefType.ofConstantName (RefType.array extra e).render = .ok (.array extra e) := by
  obtain ⟨n, hchars⟩ := array_chars h
  unfold RefType.ofConstantName
  split
  · exact (reference_exact.parse_render _).mpr h
  · rename_i hnot
    exact absurd (String.toList_ofList.trans hchars) (hnot _)

theorem constantName_of_eq_ok {text : String} {r : RefType} (hmemory : InMemory text.toList)
    (h : RefType.ofConstantName text = .ok r) : r.constantName = text := by
  rcases ofConstantName_eq_ok h with ⟨hread, cs, hbracket⟩ | ⟨name, rfl, htext⟩
  · have htext := reference_exact.render_of_parse text r hmemory hread
    cases r with
    | object name =>
      -- the descriptor of a class does not start with a bracket
      rw [← htext, RefType.render, String.toList_ofList] at hbracket
      exact absurd (List.cons.inj hbracket).1 (by decide)
    | array extra e => exact htext
  · exact htext

/-- A class constant is read as the type that it is written for. -/
theorem constantName_exact : Exact RefType.ofConstantName RefType.constantName RefType.IsCounted
    fun cs => ClassName cs ∨ ArrayType cs := by
  have hcounted : ∀ (text : String) (r : RefType), RefType.ofConstantName text = .ok r → r.IsCounted := by
    intro text r h
    rcases ofConstantName_eq_ok h with ⟨hread, -⟩ | ⟨name, rfl, -⟩
    · exact (reference_counted.sound _ _ _ (complete_eq_ok.mp hread)).1
    · trivial
  refine ⟨fun r => ⟨hcounted _ r, fun h => ?_⟩, fun text r => constantName_of_eq_ok, fun text hmemory => ?_⟩
  · cases r with
    | object name => exact ofConstantName_text name
    | array extra e => exact ofConstantName_render h
  · constructor
    · rintro ⟨r, h⟩
      have hcounted := hcounted text r h
      rw [← constantName_of_eq_ok hmemory h]
      cases r with
      | object name => exact .inl (className_text name)
      | array extra e =>
        rw [RefType.constantName, RefType.render, String.toList_ofList]
        exact .inr (arrayType_text hcounted)
    · rintro (hname | harray)
      · obtain ⟨name, htext⟩ := className_iff.mp hname
        exact ⟨.object name, String.toList_inj.mp htext ▸ ofConstantName_text name⟩
      · obtain ⟨extra, e, hcounted, hchars⟩ := exists_arrayType hmemory harray
        have htext : (RefType.array extra e).render = text := String.toList_inj.mp (String.toList_ofList.trans hchars)
        exact ⟨_, htext ▸ ofConstantName_render hcounted⟩

/-- Descriptors of references, fields and methods are read as they are written, unless they have an array with the
greatest count of further dimensions; those of the grammar are the only ones; class constants are names of classes or
descriptors of arrays; and an array type and the type of its elements determine each other, with the same exception. -/
theorem descriptors_exact :
    Exact RefType.ofDescriptor RefType.render RefType.IsCounted Reference ∧
      Exact FieldType.ofDescriptor FieldType.render FieldType.IsCounted Field ∧
      Exact MethodDescriptor.ofDescriptor MethodDescriptor.render MethodDescriptor.IsCounted Method ∧
      Exact RefType.ofConstantName RefType.constantName RefType.IsCounted (fun cs => ClassName cs ∨ ArrayType cs) ∧
      (∀ t : FieldType, (RefType.arrayOf t).elementType? = some t ↔ t.IsCounted) ∧
      ∀ (r : RefType) (t : FieldType), r.elementType? = some t → RefType.arrayOf t = r := by
  refine ⟨reference_exact, field_counted.exact (fun t _ => field_text t) fun _ => exists_field,
    method_counted.exact (fun d _ => method_text d) fun _ => exists_method, constantName_exact, ?_, ?_⟩
  · intro t
    rw [RefType.elementType?_eq_some_iff]
    simp
  · intro r t h
    exact (RefType.elementType?_eq_some_iff.mp h).1.symm

/-- The array type with the greatest count of further dimensions is written like what is in it, and an array of such
arrays has other elements. -/
theorem greatest_array_lost :
    FieldType.ofDescriptor (FieldType.ref (.array 0xffffffffffffffff (.base .int))).render = .ok (.base .int) ∧
      RefType.ofDescriptor (RefType.array 0xffffffffffffffff (.base .int)).render =
        .error (.unexpected .referenceType (some 'I')) ∧
      (RefType.arrayOf (.ref (.array 0xffffffffffffffff (.base .int)))).elementType? = some (.base .int) := by
  decide

end Descriptor

end Bytecode
