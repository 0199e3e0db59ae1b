import Bytecode.Descriptor.Parser
import Bytecode.Instruction.Op

/-!
# Verification types

What is known of a local variable or of an operand while a method is verified.  Class hierarchies are not
known, so two different reference types only have `java/lang/Object` in common.

* `VType.join` is the least type above two types; `top` is above all;
* `VType.rank` is how many steps a type can still be raised, which bounds how often joining can change it.
-/

namespace Bytecode

/-- Type of a local variable or operand. -/
inductive VType where
  /-- Not usable: never set, the second word of a long value, or different on different paths. -/
  | top
  | int
  | float
  | long
  | double
  | null
  /-- The receiver of a constructor that has not called another constructor yet. -/
  | uninitializedThis
  /-- An object made by the `new` at a position, before its constructor runs. -/
  | uninitialized (position : Nat) (name : BinaryName)
  | object (type : RefType)
  /-- The address that a `jsr` to the subroutine at `entry` pushes. -/
  | returnAddress (entry : Nat)
  deriving DecidableEq, Repr

namespace VType

/-- An object of a class. -/
def ofClass (name : BinaryName) : VType := .object (.object name)

instance : Inhabited VType := ⟨top⟩

/-- `long` and `double` take two words, the others one. -/
instance : Width VType where
  width
    | .double | .long => 2
    | _ => 1

def isReference : VType → Bool
  | .null | .uninitializedThis | .uninitialized _ _ | .object _ => true
  | _ => false

/-- Is it an object whose constructor has not run? -/
def isUninitialized : VType → Bool
  | .uninitializedThis | .uninitialized _ _ => true
  | _ => false

/-- Is it `null` or an object whose constructor has run? -/
def isInitialized : VType → Bool
  | .null | .object _ => true
  | _ => false

/-- Least type above two types. -/
def join (a b : VType) : VType :=
  if a = b then a
  else
    match a, b with
    | .null, .object _ => b
    | .object _, .null => a
    | .object _, .object _ => ofClass .object
    | _, _ => .top

/-- Can a value of type `found` be used where `expected` is asked for?  Any reference will do for any
other. -/
def assignable (found expected : VType) : Bool :=
  match found, expected with
  | _, .top => true
  | .null, .object _ | .object _, .object _ => true
  | _, _ => found = expected

def ofNumeric : NumericType → VType
  | .int => .int
  | .long => .long
  | .float => .float
  | .double => .double

/-- Type of a value with a declared type; all small integers are `int`. -/
def ofField : FieldType → VType
  | .base .float => .float
  | .base .long => .long
  | .base .double => .double
  | .base _ => .int
  | .ref r => .object r

/-- Text of a type in messages. -/
def render : VType → String
  | .top => "top"
  | .int => "int"
  | .float => "float"
  | .long => "long"
  | .double => "double"
  | .null => "null"
  | .uninitializedThis => "uninitializedThis"
  | .uninitialized position name => s!"uninitialized({position}, {name.text})"
  | .object type => type.render
  | .returnAddress entry => s!"returnAddress({entry})"

/-- Structure of a type, spelled out for listings. -/
def listing : VType → String
  | .top => "Top"
  | .int => "Integer"
  | .float => "Float"
  | .long => "Long"
  | .double => "Double"
  | .null => "Null"
  | .uninitializedThis => "UninitializedThis"
  | .uninitialized position name =>
    s!"Uninitialized \x7b new_position: {position}, class: {name.text} \x7d"
  | .object type => s!"Object({type.listing})"
  | .returnAddress entry => s!"ReturnAddress(SubroutineId({entry}))"

/-- Number of times joining can still change a type. -/
def rank : VType → Nat
  | .top => 0
  | .null => 3
  | .object type => if type = .object .object then 1 else 2
  | _ => 1

@[simp] theorem join_self (a : VType) : a.join a = a := by simp [join]

/-- Joining does not raise the rank, and lowers it whenever it changes the type. -/
theorem rank_join (a b : VType) : (a.join b).rank < a.rank ∨ a.join b = a := by
  by_cases h : a = b
  · exact Or.inr (by simp [join, h])
  · unfold join
    rw [if_neg h]
    split
    · rename_i type
      left
      by_cases ht : type = .object .object <;> simp [rank, ht]
    · exact Or.inr rfl
    · rename_i s t
      by_cases hs : s = .object .object
      · exact Or.inr (by simp [ofClass, hs])
      · left
        simp [rank, ofClass, hs]
    · cases a <;> simp [rank]
      split <;> simp

theorem rank_join_le (a b : VType) : (a.join b).rank ≤ a.rank := by
  rcases rank_join a b with h | h
  · exact Nat.le_of_lt h
  · exact Nat.le_of_eq (by rw [h])

end VType

/-! ## Reading types -/

namespace VType

/-- What stands between the parentheses after a word. -/
def argument? (word : String) (cs : List Char) : Option (List Char) :=
  let front := word.toList ++ ['(']
  if front.isPrefixOf cs ∧ cs.getLast? = some ')' then some (cs.drop front.length).dropLast
  else none

/-- The type with a text, the opposite of `render`. -/
def ofString? (text : String) : Option VType :=
  let cs := text.toList
  match text with
  | "top" => some .top
  | "int" => some .int
  | "float" => some .float
  | "long" => some .long
  | "double" => some .double
  | "null" => some .null
  | "uninitializedThis" => some .uninitializedThis
  | _ =>
    match argument? "returnAddress" cs, argument? "uninitialized" cs with
    | some entry, _ => (String.ofList entry).toNat?.map .returnAddress
    | none, some inner =>
      let digits := inner.takeWhile Char.isDigit
      match inner.drop digits.length with
      | ',' :: ' ' :: name => do
        let position ← (String.ofList digits).toNat?
        let name ← (BinaryName.ofString (String.ofList name)).toOption
        return .uninitialized position name
      | _ => none
    | none, none => (RefType.ofDescriptor text).toOption.map .object

end VType

end Bytecode
