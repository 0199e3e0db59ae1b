/-!
# Modified UTF-8

The encoding of text in class files.  Text is taken apart into sixteen-bit units (characters past the
basic plane become surrogate pairs), and each unit is written on its own in one, two or three bytes; the
unit zero takes two bytes, so that no byte is zero.

* `ModifiedUtf8.encode` writes a text;
* `ModifiedUtf8.decode?` reads one; longer encodings than needed are accepted, surrogates without a
  partner are not.
-/

namespace Bytecode.ModifiedUtf8

/-- The sixteen-bit units of a character. -/
def units (c : Char) : List Nat :=
  if c.toNat < 0x10000 then [c.toNat]
  else [0xD800 + (c.toNat - 0x10000) / 1024, 0xDC00 + (c.toNat - 0x10000) % 1024]

/-- The bytes of a unit. -/
def encodeUnit (unit : Nat) : List UInt8 :=
  if unit ≠ 0 ∧ unit < 0x80 then [UInt8.ofNat unit]
  else if unit < 0x800 then [UInt8.ofNat (0xC0 + unit / 64), UInt8.ofNat (0x80 + unit % 64)]
  else
    [UInt8.ofNat (0xE0 + unit / 4096), UInt8.ofNat (0x80 + unit / 64 % 64),
      UInt8.ofNat (0x80 + unit % 64)]

/-- The bytes of a text. -/
def encode (text : String) : List UInt8 := text.toList.flatMap fun c => (units c).flatMap encodeUnit

/-- The six bits held by a byte that continues a unit. -/
def continuation? (b : UInt8) : Option Nat :=
  if 0x80 ≤ b.toNat ∧ b.toNat < 0xC0 then some (b.toNat - 0x80) else none

/-- Read units until the bytes end, onto those already read (last unit first). -/
def unitsOnto : List Nat → List UInt8 → Option (List Nat)
  | read, [] => some read.reverse
  | read, a :: rest =>
    if 0 < a.toNat ∧ a.toNat < 0x80 then unitsOnto (a.toNat :: read) rest
    else if 0xC0 ≤ a.toNat ∧ a.toNat < 0xE0 then
      match rest with
      | b :: rest =>
        match continuation? b with
        | some low => unitsOnto (((a.toNat - 0xC0) * 64 + low) :: read) rest
        | none => none
      | [] => none
    else if 0xE0 ≤ a.toNat ∧ a.toNat < 0xF0 then
      match rest with
      | b :: c :: rest =>
        match continuation? b, continuation? c with
        | some middle, some low =>
          unitsOnto (((a.toNat - 0xE0) * 4096 + middle * 64 + low) :: read) rest
        | _, _ => none
      | _ => none
    else none

def isHighSurrogate (unit : Nat) : Bool := 0xD800 ≤ unit && unit < 0xDC00

def isLowSurrogate (unit : Nat) : Bool := 0xDC00 ≤ unit && unit < 0xE000

/-- Put units together to characters, onto those already read (last character first). -/
def charsOnto : List Char → List Nat → Option (List Char)
  | read, [] => some read.reverse
  | read, unit :: rest =>
    if isHighSurrogate unit then
      match rest with
      | low :: rest =>
        if isLowSurrogate low then
          charsOnto (Char.ofNat (0x10000 + (unit - 0xD800) * 1024 + (low - 0xDC00)) :: read) rest
        else none
      | [] => none
    else if isLowSurrogate unit then none
    else charsOnto (Char.ofNat unit :: read) rest

/-- The text that some bytes encode. -/
def decode? (bytes : List UInt8) : Option String := do
  let units ← unitsOnto [] bytes
  let chars ← charsOnto [] units
  return String.ofList chars

end Bytecode.ModifiedUtf8
