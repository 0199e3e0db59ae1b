/-!
# Hexadecimal text

Lower case hexadecimal digits of numbers and of byte strings.
-/

namespace Bytecode.Hex

/-- The digit of a value below sixteen. -/
def digit (n : Nat) : Char := Nat.digitChar (n % 16)

/-- The last `count` digits of a number. -/
def digits : (count : Nat) → Nat → List Char
  | 0, _ => []
  | count + 1, n => digits count (n / 16) ++ [digit n]

/-- A number with its mark and at least `count` digits. -/
def marked (count n : Nat) : String :=
  let shown := Nat.toDigits 16 n
  "0x" ++ String.ofList (List.replicate (count - shown.length) '0' ++ shown)

/-- Two digits for every byte. -/
def ofBytes (bytes : List UInt8) : String :=
  String.ofList (bytes.flatMap fun b => digits 2 b.toNat)

/-- Value of a digit, in lower or upper case. -/
def value? (c : Char) : Option Nat :=
  if '0' ≤ c ∧ c ≤ '9' then some (c.toNat - '0'.toNat)
  else if 'a' ≤ c ∧ c ≤ 'f' then some (c.toNat - 'a'.toNat + 10)
  else if 'A' ≤ c ∧ c ≤ 'F' then some (c.toNat - 'A'.toNat + 10)
  else none

/-- Value of a digit string. -/
def toNat? (text : String) : Option Nat :=
  text.toList.foldl (fun n c => do return (← n) * 16 + (← value? c)) (some 0)

/-- The bytes written by pairs of digits, in front of those already read (last byte first). -/
def bytesOnto : List UInt8 → List Char → Option (List UInt8)
  | read, [] => some read.reverse
  | _, [_] => none
  | read, a :: b :: rest =>
    match value? a, value? b with
    | some high, some low => bytesOnto (UInt8.ofNat (high * 16 + low) :: read) rest
    | _, _ => none

/-- The bytes written by pairs of digits. -/
def toBytes? (text : String) : Option (List UInt8) := bytesOnto [] text.toList

end Bytecode.Hex
