import Bytecode.Body
import Bytecode.ClassFile.Basic
import Bytecode.PositionMap
import Bytecode.Verification.Frame
import Bytecode.Verification.Resolver

/-!
# Methods before and after verification

`Method` is a method with a body, its names and types read.  `Verified` is all that verification by
inference learns of it: the types where paths meet, the subroutines, and which subroutines are active at
every instruction that can be reached.
-/

namespace Bytecode

/-- A method with a body. -/
structure Method where
  className : BinaryName
  name : UnqualifiedName
  descriptor : MethodDescriptor
  isStatic : Bool
  code : Code
  constants : Resolver

namespace Method

/-- Read the names and types of a method of a class. -/
def ofMember (c : ClassFile) (m : Member) (code : Code) : Except FormatError Method := do
  let className ← (BinaryName.ofString (← c.name)).mapError .badName
  let name ← (UnqualifiedName.ofString (← m.name c.constants)).mapError .badName
  let text ← m.descriptor c.constants
  let descriptor ← (MethodDescriptor.ofDescriptor text).mapError fun _ => .badDescriptor text
  return ⟨className, name, descriptor, m.isStatic, code, c.constants.resolver⟩

def isConstructor (m : Method) : Bool := m.name = .init

/-- Class, name and descriptor. -/
def describe (m : Method) : String :=
  s!"{m.className.text}.{m.name.text}{m.descriptor.render}"

end Method

/-- The frame at a place that control can reach from elsewhere than the instruction in front. -/
structure TypeState where
  position : Nat
  frame : Frame
  /-- Has the code from here on been looked at? -/
  visited : Bool
  deriving DecidableEq, Repr

namespace TypeState

def fresh (position : Nat) (frame : Frame) : TypeState := ⟨position, frame, false⟩

/-- Merge a frame that arrives, telling whether it changed anything. -/
def merge (s : TypeState) (incoming : Frame) : Except VerifyFault (Bool × TypeState) :=
  match s.frame.merge incoming with
  | .error fault => .error fault
  | .ok frame => .ok (frame ≠ s.frame, { s with frame })

end TypeState

/-- What verification by inference learns of a method. -/
structure Verified where
  body : Body
  states : PositionMap TypeState
  subroutines : Registry
  /-- Instructions that store a return address. -/
  returnStores : PositionSet
  /-- The `ret` that returns to each `jsr`. -/
  jsrRets : PositionMap Nat
  /-- Number of subroutines that each `ret` leaves. -/
  framesPopped : PositionMap Nat
  /-- Instructions that were looked at. -/
  visited : PositionSet
  /-- The subroutines active at each instruction that was looked at, by index. -/
  active : Array (Option Nesting)

namespace Verified

/-- The subroutines active at each instruction, put behind those of the instructions in front, the last
of which has the subroutines `current`.  Control comes to an instruction without a state of its own only
from the instruction in front, so its subroutines are those of the last state before it. -/
def activeOnto (states : PositionMap TypeState) (visited : PositionSet) :
    Option Nesting → Array (Option Nesting) → List Instruction → Array (Option Nesting)
  | _, front, [] => front
  | current, front, i :: rest =>
    let current :=
      match states.get? i.position with
      | some state => some state.frame.nesting
      | none => current
    let current := if visited.contains i.position then current else none
    activeOnto states visited current (front.push current) rest

/-- Does the method call subroutines? -/
def hasSubroutines (v : Verified) : Bool := !v.subroutines.isEmpty

/-- Is there code that cannot be reached? -/
def hasUnvisitedCode (v : Verified) : Bool := v.visited.size < v.body.size

/-- The subroutines active at an instruction; `none` if it is never reached. -/
def activeAt? (v : Verified) (index : Nat) : Option Nesting := v.active[index]?.join

end Verified

end Bytecode
