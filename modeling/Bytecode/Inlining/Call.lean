import Bytecode.Verification.Subroutine

/-!
# Calls

Code that is inlined is copied once for every call, so each copy is told apart by the calls it is in.  A
`Call` is the path of subroutine calls that leads to it from the method body, which is itself the `root`.
Calls of one subroutine from different `jsr` instructions are different calls, though the same subroutines
are active in both.
-/

namespace Bytecode

/-- One call on the way. -/
structure Activation where
  /-- Entry of the subroutine that is called. -/
  subroutine : Nat
  /-- Position of the `jsr` that calls it. -/
  caller : Nat
  /-- Tells apart calls that one `jsr` makes from one call; inlining makes only one, with serial zero. -/
  serial : Nat
  deriving DecidableEq, Repr

/-- The calls that lead to a copy of some code, the outermost first. -/
structure Call where
  path : List Activation
  deriving DecidableEq, Repr

namespace Call

/-- The method body, outside of all subroutines. -/
def root : Call := ⟨[]⟩

/-- Call a subroutine from a `jsr` inside of this call. -/
def child (c : Call) (subroutine caller : Nat) (serial : Nat := 0) : Call :=
  ⟨c.path ++ [⟨subroutine, caller, serial⟩]⟩

/-- The call that was made last. -/
def innermost? (c : Call) : Option Activation := c.path.getLast?

def subroutine? (c : Call) : Option Nat := c.innermost?.map Activation.subroutine

def caller? (c : Call) : Option Nat := c.innermost?.map Activation.caller

/-- Number of subroutines that are active. -/
def depth (c : Call) : Nat := c.path.length

/-- The subroutines that are active, outermost first. -/
def nesting (c : Call) : Nesting := c.path.map Activation.subroutine

/-- Does code with these active subroutines belong into this call? -/
def hosts (c : Call) (n : Nesting) : Bool := c.nesting = n

/-- The call so many levels up; level zero is the call itself. -/
def ancestor? (c : Call) (levels : Nat) : Option Call :=
  if levels ≤ c.depth then some ⟨c.path.take (c.depth - levels)⟩ else none

/-- The call from which this one is made. -/
def parent? (c : Call) : Option Call := c.ancestor? 1

/-- Can code in this call jump to code in the target call?  Control can stay in a call or leave it for one
around it, but jumps never enter another call. -/
def canGoto (c target : Call) : Bool := target.path.isPrefixOf c.path

/-- The calls, outermost first. -/
def listing (c : Call) : String :=
  let parts := c.path.map fun a => s!"{a.subroutine} from {a.caller}"
  "[" ++ ", ".intercalate parts ++ "]"

theorem canGoto_iff {c target : Call} : c.canGoto target = true ↔ target.path <+: c.path := by
  simp [canGoto]

end Call

end Bytecode
