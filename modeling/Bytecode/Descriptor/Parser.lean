import Bytecode.Descriptor.Basic

/-!
# Reading descriptors

Each reader takes the characters in front of it and gives the type read and the characters left.  A
complete descriptor is read by `complete`, which refuses characters after the type.
-/

namespace Bytecode

/-- What a descriptor should have had at the place where reading stopped. -/
inductive DescriptorPart where
  | primitiveType | classMark | classEnd | referenceType | openParameters | closeParameters | nothing
  deriving DecidableEq, Repr

def DescriptorPart.describe : DescriptorPart → String
  | .primitiveType => "a primitive type"
  | .classMark => "'L'"
  | .classEnd => "';'"
  | .referenceType => "a reference type"
  | .openParameters => "'('"
  | .closeParameters => "')'"
  | .nothing => "end of descriptor"

/-- Why a text is not a descriptor. -/
inductive DescriptorError where
  /-- Something other than the expected part follows (`none`: the text ends). -/
  | unexpected (expected : DescriptorPart) (found : Option Char)
  /-- The name of a class is not a name. -/
  | badClassName (cause : NameError)
  deriving DecidableEq, Repr

/-- Text of a descriptor error. -/
def DescriptorError.message : DescriptorError → String
  | .unexpected expected (some c) => s!"Expected {expected.describe} but found '{c}'"
  | .unexpected expected none => s!"Expected {expected.describe} but reached the end"
  | .badClassName cause => cause.message

namespace Descriptor

/-- A reader of the front of a text. -/
abbrev Reader (α : Type) := List Char → Except DescriptorError (α × List Char)

/-- One letter of a primitive type. -/
def base : Reader BaseType
  | [] => .error (.unexpected .primitiveType none)
  | c :: rest =>
    match BaseType.ofLetter? c with
    | some b => .ok (b, rest)
    | none => .error (.unexpected .primitiveType (some c))

/-- A class between `L` and `;`. -/
def className : Reader BinaryName
  | 'L' :: cs =>
    match cs.dropWhile (· != ';') with
    | [] => .error (.unexpected .classEnd none)
    | _ :: rest =>
      match BinaryName.ofString (String.ofList (cs.takeWhile (· != ';'))) with
      | .ok name => .ok (name, rest)
      | .error cause => .error (.badClassName cause)
  | cs => .error (.unexpected .classMark cs.head?)

/-- What follows the brackets of an array. -/
def element (cs : List Char) : Except DescriptorError (ElementType × List Char) :=
  match cs with
  | 'L' :: _ => (className cs).map fun (name, rest) => (.object name, rest)
  | _ => (base cs).map fun (b, rest) => (.base b, rest)

/-- A class or an array. -/
def reference (cs : List Char) : Except DescriptorError (RefType × List Char) :=
  let dimensions := UInt64.ofNat (cs.takeWhile (· == '[')).length
  let behind := cs.dropWhile (· == '[')
  if dimensions = 0 then
    match behind with
    | 'L' :: _ => (className behind).map fun (name, rest) => (.object name, rest)
    | _ => .error (.unexpected .referenceType behind.head?)
  else (element behind).map fun (e, rest) => (.array (dimensions - 1) e, rest)

/-- Type of a field, parameter or result. -/
def field (cs : List Char) : Except DescriptorError (FieldType × List Char) :=
  match cs with
  | 'L' :: _ | '[' :: _ => (reference cs).map fun (r, rest) => (.ref r, rest)
  | _ => (base cs).map fun (b, rest) => (.base b, rest)

theorem base_shorter {cs rest : List Char} {b : BaseType} (h : base cs = .ok (b, rest)) :
    rest.length < cs.length := by
  cases cs with
  | nil => simp [base] at h
  | cons c cs =>
    simp only [base] at h
    split at h
    · cases h
      simp
    · simp at h

theorem length_dropWhile_le (p : Char → Bool) (cs : List Char) :
    (cs.dropWhile p).length ≤ cs.length := by
  exact (List.dropWhile_suffix p).length_le

theorem className_shorter {cs rest : List Char} {name : BinaryName}
    (h : className cs = .ok (name, rest)) : rest.length < cs.length := by
  unfold className at h
  split at h
  · rename_i cs
    have hle := length_dropWhile_le (· != ';') cs
    split at h
    · simp at h
    · rename_i heq
      split at h
      · cases h
        rw [heq] at hle
        simp only [List.length_cons] at hle ⊢
        omega
      · simp at h
  · simp at h

/-- What is read can be made into something else, with the same characters left. -/
theorem read_map_eq_ok {α β : Type} {x : Except DescriptorError (α × List Char)} {f : α → β} {b : β} {rest : List Char} :
    (x.map fun (a, rest) => (f a, rest)) = .ok (b, rest) ↔ ∃ a, x = .ok (a, rest) ∧ f a = b := by
  cases x with
  | error e => simp [Except.map]
  | ok found =>
    obtain ⟨a, rest'⟩ := found
    simp only [Except.map, Except.ok.injEq, Prod.mk.injEq]
    constructor
    · rintro ⟨rfl, rfl⟩
      exact ⟨a, ⟨rfl, rfl⟩, rfl⟩
    · rintro ⟨a, ⟨rfl, rfl⟩, rfl⟩
      exact ⟨rfl, rfl⟩

theorem element_shorter {cs rest : List Char} {e : ElementType} (h : element cs = .ok (e, rest)) :
    rest.length < cs.length := by
  unfold element at h
  split at h
  · obtain ⟨name, hname, -⟩ := read_map_eq_ok.mp h
    exact className_shorter hname
  · obtain ⟨b, hb, -⟩ := read_map_eq_ok.mp h
    exact base_shorter hb

theorem reference_shorter {cs rest : List Char} {r : RefType} (h : reference cs = .ok (r, rest)) :
    rest.length < cs.length := by
  refine Nat.lt_of_lt_of_le ?_ (length_dropWhile_le (· == '[') cs)
  simp only [reference] at h
  split at h
  · split at h
    · obtain ⟨name, hname, -⟩ := read_map_eq_ok.mp h
      exact className_shorter hname
    · simp at h
  · obtain ⟨e, he, -⟩ := read_map_eq_ok.mp h
    exact element_shorter he

/-- Reading a field type uses up at least one character. -/
theorem field_shorter {cs rest : List Char} {t : FieldType} (h : field cs = .ok (t, rest)) :
    rest.length < cs.length := by
  unfold field at h
  split at h
  · obtain ⟨r, hr, -⟩ := read_map_eq_ok.mp h
    exact reference_shorter hr
  · obtain ⟨r, hr, -⟩ := read_map_eq_ok.mp h
    exact reference_shorter hr
  · obtain ⟨b, hb, -⟩ := read_map_eq_ok.mp h
    exact base_shorter hb

/-- The parameters of a method, up to and with the closing parenthesis. -/
def parameters (cs : List Char) : Except DescriptorError (List FieldType × List Char) :=
  match cs with
  | [] => .error (.unexpected .closeParameters none)
  | c :: cs =>
    if c = ')' then .ok ([], cs)
    else
      match _h : field (c :: cs) with
      | .error e => .error e
      | .ok (t, rest) =>
        match parameters rest with
        | .error e => .error e
        | .ok (ts, rest) => .ok (t :: ts, rest)
termination_by cs.length
decreasing_by exact field_shorter _h

/-- The result of a method; `V` stands for none. -/
def result (cs : List Char) : Except DescriptorError (Option FieldType × List Char) :=
  match cs with
  | 'V' :: rest => .ok (none, rest)
  | _ => (field cs).map fun (t, rest) => (some t, rest)

/-- Parameters between parentheses, then the result. -/
def method (cs : List Char) : Except DescriptorError (MethodDescriptor × List Char) :=
  match cs with
  | '(' :: cs => do
    let (ts, cs) ← parameters cs
    let (r, rest) ← result cs
    return (⟨ts, r⟩, rest)
  | _ => .error (.unexpected .openParameters cs.head?)

/-- Read a text that is one descriptor and nothing else. -/
def complete {α : Type} (read : Reader α) (text : String) : Except DescriptorError α :=
  match read text.toList with
  | .error e => .error e
  | .ok (a, []) => .ok a
  | .ok (_, c :: _) => .error (.unexpected .nothing (some c))

end Descriptor

def BaseType.ofDescriptor (text : String) : Except DescriptorError BaseType :=
  Descriptor.complete Descriptor.base text

def BinaryName.ofDescriptor (text : String) : Except DescriptorError BinaryName :=
  Descriptor.complete Descriptor.className text

def RefType.ofDescriptor (text : String) : Except DescriptorError RefType :=
  Descriptor.complete Descriptor.reference text

def FieldType.ofDescriptor (text : String) : Except DescriptorError FieldType :=
  Descriptor.complete Descriptor.field text

def MethodDescriptor.ofDescriptor (text : String) : Except DescriptorError MethodDescriptor :=
  Descriptor.complete Descriptor.method text

/-- The type named by a class constant: classes by name, arrays by descriptor. -/
def RefType.ofConstantName (text : String) : Except DescriptorError RefType :=
  match text.toList with
  | '[' :: _ => RefType.ofDescriptor text
  | _ =>
    match BinaryName.ofString text with
    | .ok name => .ok (.object name)
    | .error cause => .error (.badClassName cause)

end Bytecode
