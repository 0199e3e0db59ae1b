/-!
# Words of 64 bits

Offsets and positions are counted in words of 64 bits.  `Word.wrap` is the word that a sum leaves, and
`Word.signed` the number that a word stands for when its highest bit is a sign, as in a distance.  Numbers
that fit into a word are left alone by both.
-/

namespace Bytecode

namespace Word

/-- What is left of a number in a word: past the greatest word, counting starts over at zero. -/
def wrap (n : Nat) : Nat := n % 0x10000000000000000

/-- What is left of a number in a word with a sign. -/
def signed (n : Int) : Int := n.bmod 0x10000000000000000

theorem wrap_of_lt {n : Nat} (h : n < 0x10000000000000000) : wrap n = n := Nat.mod_eq_of_lt h

theorem signed_of_lt {n : Int} (hlower : -0x8000000000000000 ≤ n) (hupper : n < 0x8000000000000000) :
    signed n = n := by
  apply Int.bmod_eq_of_le <;> omega

/-- Distances between positions below half of the words are what they seem to be. -/
theorem signed_sub_of_lt {m n : Nat} (hm : m < 0x8000000000000000) (hn : n < 0x8000000000000000) :
    signed ((m : Int) - (n : Int)) = (m : Int) - (n : Int) := by
  apply signed_of_lt <;> omega

end Word

end Bytecode
