import Bytecode.Name
import Bytecode.Tiling

/-!
# Types of fields and methods, and their descriptors

The types that class files give to fields, parameters and results, and the text (`chars`, `render`) that
class files write for them: one letter for a primitive type, `Lname;` for a class, and a `[` in front for
every dimension of an array.  Dimensions beyond the first are counted in a word of 64 bits, so that an array with the
greatest count has no dimensions when all are counted; the others are `IsCounted`.
-/

namespace Bytecode

/-- Primitive value types. -/
inductive BaseType where
  | byte | char | double | float | int | long | short | boolean
  deriving DecidableEq, Repr

namespace BaseType

/-- The letter of a primitive type in descriptors. -/
def letter : BaseType → Char
  | .byte => 'B'
  | .char => 'C'
  | .double => 'D'
  | .float => 'F'
  | .int => 'I'
  | .long => 'J'
  | .short => 'S'
  | .boolean => 'Z'

/-- The primitive type with a letter. -/
def ofLetter? : Char → Option BaseType
  | 'B' => some .byte
  | 'C' => some .char
  | 'D' => some .double
  | 'F' => some .float
  | 'I' => some .int
  | 'J' => some .long
  | 'S' => some .short
  | 'Z' => some .boolean
  | _ => none

/-- Name of a primitive type in listings. -/
def name : BaseType → String
  | .byte => "Byte"
  | .char => "Char"
  | .double => "Double"
  | .float => "Float"
  | .int => "Int"
  | .long => "Long"
  | .short => "Short"
  | .boolean => "Boolean"

/-- `long` and `double` take two words, the others one. -/
instance : Width BaseType where
  width
    | .double | .long => 2
    | _ => 1

def chars (b : BaseType) : List Char := [b.letter]

def render (b : BaseType) : String := String.ofList b.chars

theorem ofLetter?_letter (b : BaseType) : ofLetter? b.letter = some b := by
  cases b <;> rfl

theorem letter_of_ofLetter? {c : Char} {b : BaseType} (h : ofLetter? c = some b) : b.letter = c := by
  unfold ofLetter? at h
  split at h <;> first | (cases h; rfl) | exact absurd h (by simp)

end BaseType

namespace BinaryName

def chars (name : BinaryName) : List Char := 'L' :: (name.text.toList ++ [';'])

/-- Descriptor of a class. -/
def render (name : BinaryName) : String := String.ofList name.chars

end BinaryName

/-- What an array has in it once all its dimensions are taken off. -/
inductive ElementType where
  | object (name : BinaryName)
  | base (type : BaseType)
  deriving DecidableEq, Repr

def ElementType.chars : ElementType → List Char
  | .object name => name.chars
  | .base type => type.chars

/-- Reference types: classes and arrays. -/
inductive RefType where
  | object (name : BinaryName)
  /-- An array with `extra` dimensions beyond the first. -/
  | array (extra : UInt64) (element : ElementType)
  deriving DecidableEq, Repr

/-- Types of fields, parameters and results. -/
inductive FieldType where
  | base (type : BaseType)
  | ref (type : RefType)
  deriving DecidableEq, Repr

namespace RefType

def chars : RefType → List Char
  | .object name => name.chars
  | .array extra element => List.replicate (extra + 1).toNat '[' ++ element.chars

/-- Descriptor of a reference type. -/
def render (r : RefType) : String := String.ofList r.chars

/-- Number of dimensions; a class has none. -/
def dimensions : RefType → Nat
  | .object _ => 0
  | .array extra _ => (extra + 1).toNat

/-- Is the number of dimensions of an array a word, so that it is not taken for none? -/
def IsCounted : RefType → Prop
  | .object _ => True
  | .array extra _ => extra + 1 ≠ 0

/-- The array type with the given type of elements. -/
def arrayOf : FieldType → RefType
  | .base b => .array 0 (.base b)
  | .ref (.object name) => .array 0 (.object name)
  | .ref (.array extra element) => .array (extra + 1) element

/-- The type of the elements of an array. -/
def elementType? : RefType → Option FieldType
  | .object _ => none
  | .array extra element =>
    if extra = 0 then
      match element with
      | .object name => some (.ref (.object name))
      | .base b => some (.base b)
    else some (.ref (.array (extra - 1) element))

/-- The name that class constants give to a type: classes by name, arrays by descriptor. -/
def constantName : RefType → String
  | .object name => name.text
  | .array extra element => render (.array extra element)

/-- Structure of a reference type, spelled out for listings. -/
def listing : RefType → String
  | .object name => s!"Object({name.text})"
  | .array extra (.object name) =>
    s!"ObjectArray(ArrayType \x7b additional_dimensions: {extra}, element_type: {name.text} \x7d)"
  | .array extra (.base b) =>
    s!"PrimitiveArray(ArrayType \x7b additional_dimensions: {extra}, element_type: {b.name} \x7d)"

end RefType

namespace FieldType

/-- `long` and `double` take two words, the others one. -/
instance : Width FieldType where
  width
    | .base b => width b
    | .ref _ => 1

def chars : FieldType → List Char
  | .base b => b.chars
  | .ref r => r.chars

/-- Descriptor of a field type. -/
def render (t : FieldType) : String := String.ofList t.chars

/-- The array type with these elements. -/
def array (element : FieldType) : FieldType := .ref (.arrayOf element)

def IsCounted : FieldType → Prop
  | .base _ => True
  | .ref r => r.IsCounted

end FieldType

/-- Taking the elements of an array type and making an array type undo each other, as long as dimensions are counted. -/
theorem RefType.elementType?_eq_some_iff {r : RefType} {t : FieldType} :
    r.elementType? = some t ↔ r = arrayOf t ∧ t.IsCounted := by
  constructor
  · intro h
    unfold elementType? at h
    split at h
    · simp at h
    · rename_i extra element
      split at h
      · rename_i hzero
        subst hzero
        cases element <;> cases h <;> exact ⟨rfl, trivial⟩
      · rename_i hmore
        cases h
        exact ⟨by simp [arrayOf], by simpa [FieldType.IsCounted, IsCounted] using hmore⟩
  · rintro ⟨rfl, hcounted⟩
    unfold arrayOf
    split
    · rfl
    · rfl
    · rename_i extra element
      have hmore : extra + 1 ≠ 0 := hcounted
      simp [elementType?, hmore]

/-- Parameters and result of a method; `none` is the result `void`. -/
structure MethodDescriptor where
  parameters : List FieldType
  returnType : Option FieldType
  deriving DecidableEq, Repr

namespace MethodDescriptor

def chars (d : MethodDescriptor) : List Char :=
  '(' :: (d.parameters.flatMap FieldType.chars ++ ')' :: d.returnType.elim ['V'] FieldType.chars)

/-- Descriptor of a method. -/
def render (d : MethodDescriptor) : String := String.ofList d.chars

def IsCounted (d : MethodDescriptor) : Prop :=
  (∀ t ∈ d.parameters, t.IsCounted) ∧ ∀ t ∈ d.returnType, t.IsCounted

end MethodDescriptor

end Bytecode
