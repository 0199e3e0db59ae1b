import Bytecode.ClassFile.FormatError

/-!
# Big endian numbers and counted sequences

Class files are written in bytes, numbers with their highest byte first, and most sequences after a count
of two bytes.  A `Reader` takes values off the front of the input and leaves the rest; `Serial.write`
gives the bytes of a value.  Writing a count keeps only its lowest sixteen bits.
-/

namespace Bytecode

/-- A reader of the front of the input. -/
abbrev Reader := StateT (List UInt8) (Except FormatError)

/-- Values with a fixed way of being written into class files and read back. -/
class Serial (α : Type) where
  write : α → List UInt8
  read : Reader α

export Serial (write read)

namespace Binary

/-- The lowest `count` bytes of a number, highest first. -/
def bigEndian : (count : Nat) → Nat → List UInt8
  | 0, _ => []
  | count + 1, n => bigEndian count (n / 256) ++ [UInt8.ofNat n]

/-- The number written by some bytes, highest first. -/
def ofBigEndian (bytes : List UInt8) : Nat := bytes.foldl (fun n b => n * 256 + b.toNat) 0

@[simp] theorem length_bigEndian (count n : Nat) : (bigEndian count n).length = count := by
  induction count generalizing n with
  | zero => rfl
  | succ count ih => simp [bigEndian, ih]

/-- Exactly `count` bytes. -/
def exactly (count : Nat) : Reader (List UInt8) := fun input =>
  let front := input.take count
  if front.length = count then .ok (front, input.drop count) else .error .truncated

theorem exactly_append (front rest : List UInt8) :
    exactly front.length (front ++ rest) = .ok (front, rest) := by
  simp [exactly]

/-- A number of `count` bytes. -/
def number (count : Nat) : Reader Nat := ofBigEndian <$> exactly count

/-- As many values as counted, put behind those already read (last value first). -/
def manyOnto {α : Type} (one : Reader α) : (count : Nat) → List α → Reader (List α)
  | 0, front => pure front.reverse
  | count + 1, front => do manyOnto one count ((← one) :: front)

/-- As many values as counted. -/
def many {α : Type} (one : Reader α) (count : Nat) : Reader (List α) := manyOnto one count []

end Binary

open Binary

instance : Serial UInt8 where
  write n := bigEndian 1 n.toNat
  read := UInt8.ofNat <$> number 1

instance : Serial UInt16 where
  write n := bigEndian 2 n.toNat
  read := UInt16.ofNat <$> number 2

instance : Serial UInt32 where
  write n := bigEndian 4 n.toNat
  read := UInt32.ofNat <$> number 4

instance : Serial UInt64 where
  write n := bigEndian 8 n.toNat
  read := UInt64.ofNat <$> number 8

instance : Serial Int16 where
  write n := write n.toUInt16
  read := UInt16.toInt16 <$> read

instance : Serial Int32 where
  write n := write n.toUInt32
  read := UInt32.toInt32 <$> read

instance : Serial Int64 where
  write n := write n.toUInt64
  read := UInt64.toInt64 <$> read

/-- A sequence is written after its length; of the length sixteen bits are kept. -/
instance {α : Type} [Serial α] : Serial (List α) where
  write values := write (UInt16.ofNat values.length) ++ values.flatMap write
  read := do
    let count : UInt16 ← read
    many read count.toNat

/-- Run a reader on an input, giving the value and what is left. -/
def Reader.on {α : Type} (reader : Reader α) (input : List UInt8) : Except FormatError (α × List UInt8) :=
  StateT.run reader input

/-- Bytes written after their length, which takes `width` bytes. -/
def Binary.sized (width : Nat) (bytes : List UInt8) : List UInt8 :=
  bigEndian width bytes.length ++ bytes

/-- Bytes that follow their length, which takes `width` bytes. -/
def Binary.readSized (width : Nat) : Reader (List UInt8) := do exactly (← number width)

end Bytecode
