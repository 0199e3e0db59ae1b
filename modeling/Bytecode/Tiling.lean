import Bytecode.Word

/-!
# Tilings: elements laid end to end

A tiling holds elements of different widths, one after the other, and addresses them by *offset*: the
sum of the widths of the elements in front, counted from a starting offset.  Code is tiled by its
instructions (each as wide as its encoding) and the constant pool by its constants (eight-byte constants
take two indices, and the first index is one).

* `Tiling.push` / `Tiling.pop?` add and remove the last element;
* `Tiling.locate` finds the element at an offset by bisection, and says how an offset misses;
* `Tiling.map` changes every element and lays the results end to end again.

Each tile stores its offset, so that lookups do not add up widths.  Offsets are words: past the greatest one
they start over at zero.
-/

namespace Bytecode

/-- Elements that take up a number of places. -/
class Width (α : Type) where
  width : α → Nat

export Width (width)

/-- Elements laid end to end from a starting offset, each stored with its own offset. -/
structure Tiling (α : Type) where
  /-- Offset of the first element. -/
  start : Nat
  /-- The elements in order, each with its offset. -/
  tiles : Array (Nat × α)
  /-- Offset at which the next element is laid. -/
  stop : Nat

/-- What an offset leads to in a tiling. -/
inductive Located (α : Type) where
  /-- The offset is that of the element with this index. -/
  | found (index : Nat) (item : α)
  /-- The offset falls inside the element with this index. -/
  | inside (index : Nat)
  /-- The offset is in front of the first element. -/
  | before
  /-- The offset is past the last element. -/
  | beyond

namespace Located

variable {α : Type}

/-- Index of the element found. -/
def index? : Located α → Option Nat
  | .found index _ => some index
  | _ => none

/-- The element found. -/
def item? : Located α → Option α
  | .found _ item => some item
  | _ => none

end Located

namespace Tiling

variable {α β : Type}

/-- The tiling with no element, whose first element will be at `start`. -/
def empty (start : Nat) : Tiling α := ⟨start, #[], start⟩

instance : Inhabited (Tiling α) := ⟨empty 0⟩

/-- Number of elements (not their total width). -/
def size (t : Tiling α) : Nat := t.tiles.size

def isEmpty (t : Tiling α) : Bool := t.tiles.isEmpty

/-- The elements in order. -/
def items (t : Tiling α) : List α := t.tiles.toList.map Prod.snd

/-- The elements in order, each with its offset. -/
def toList (t : Tiling α) : List (Nat × α) := t.tiles.toList

/-- Lay an element at the end; it is placed at offset `t.stop`. -/
def push [Width α] (t : Tiling α) (a : α) : Tiling α :=
  { t with tiles := t.tiles.push (t.stop, a), stop := Word.wrap (t.stop + width a) }

/-- Lay several elements at the end. -/
def append [Width α] (t : Tiling α) (as : List α) : Tiling α := as.foldl push t

/-- The tiling of a list of elements. -/
def ofList [Width α] (start : Nat) (as : List α) : Tiling α := (empty start).append as

/-- Take the last element off, giving its offset and its index too. -/
def pop? (t : Tiling α) : Option ((Nat × Nat × α) × Tiling α) :=
  t.tiles.back?.map fun (offset, a) =>
    ((offset, t.tiles.size - 1, a), { t with tiles := t.tiles.pop, stop := offset })

/-- The last element. -/
def last? (t : Tiling α) : Option α := t.tiles.back?.map Prod.snd

/-- Take all elements off. -/
def clear (t : Tiling α) : Tiling α := empty t.start

/-- Element with an index, and its offset. -/
def get? (t : Tiling α) (index : Nat) : Option (Nat × α) := t.tiles[index]?

/-- Bisection of `count` tiles from the index `first` on: the last of them that is not behind `offset`.  The
tile at `first` itself is taken not to be. -/
def lastUpTo (tiles : Array (Nat × α)) (offset first count : Nat) : Nat :=
  if 1 < count then
    let middle := first + count / 2
    let isBehind := tiles[middle]?.all fun tile => offset < tile.1
    lastUpTo tiles offset (if isBehind then first else middle) (count - count / 2)
  else first
termination_by count
decreasing_by omega

/-- Find the element at an offset.  Of several at one offset it is the last, since those in front of it
have no width. -/
def locate (t : Tiling α) (offset : Nat) : Located α :=
  if offset < t.start then .before
  else
    let index := lastUpTo t.tiles offset 0 t.tiles.size
    match t.tiles[index]? with
    | none => .beyond
    | some (found, a) =>
      if found = offset then .found index a
      else if t.stop ≤ offset then .beyond
      else .inside index

/-- Change every element, laying the results end to end from the same start. -/
def map [Width β] (f : α → β) (t : Tiling α) : Tiling β := ofList t.start (t.items.map f)

/-- Tilings are compared by their tiles: the same elements at the same offsets. -/
instance [BEq α] : BEq (Tiling α) := ⟨fun t u => t.tiles == u.tiles⟩

/-- Text of a tiling: every element after its offset. -/
def render (text : α → String) (t : Tiling α) : String :=
  let parts := t.toList.map fun (offset, a) => s!"#{offset} = {text a}"
  "[" ++ ", ".intercalate parts ++ "]"

@[simp] theorem size_push [Width α] (t : Tiling α) (a : α) : (t.push a).size = t.size + 1 := by
  simp [push, size]

@[simp] theorem items_push [Width α] (t : Tiling α) (a : α) : (t.push a).items = t.items ++ [a] := by
  simp [push, items]

/-- As long as offsets fit into a word, they are sums of widths. -/
theorem stop_push_of_lt [Width α] (t : Tiling α) (a : α) (h : t.stop + width a < 0x10000000000000000) :
    (t.push a).stop = t.stop + width a :=
  Word.wrap_of_lt h

/-- Taking off the element just laid gives the tiling back. -/
theorem pop?_push [Width α] (t : Tiling α) (a : α) :
    (t.push a).pop? = some ((t.stop, t.size, a), t) := by
  simp [push, pop?, size]

end Tiling

end Bytecode
