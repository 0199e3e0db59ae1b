import Bytecode.Verification.Frame

/-!
# What is told on the way

Verifying and inlining can tell what they do, step by step.  An `Event` is one such step; its level says
how much one must want to know to be told, and `Event.message` is what one is told.
-/

namespace Bytecode

/-- Levels of detail, the most severe first. -/
inductive Level where
  | error | warning | info | debug | trace
  deriving DecidableEq, Repr

namespace Level

def name : Level → String
  | .error => "ERROR"
  | .warning => "WARN"
  | .info => "INFO"
  | .debug => "DEBUG"
  | .trace => "TRACE"

/-- How much detail a level is. -/
def detail : Level → Nat
  | .error => 0
  | .warning => 1
  | .info => 2
  | .debug => 3
  | .trace => 4

end Level

/-- A line of the listing of inlined code. -/
structure ListedCopy where
  newPosition : Nat
  mnemonic : String
  oldPosition : Nat
  call : String
  disposition : String
  deriving DecidableEq, Repr

/-- Something that happened while classes were verified and inlined. -/
inductive Event where
  | verifying (method : String)
  | decoded (mnemonic : String) (position size : Nat)
  | newState (position : Nat) (frame : Frame)
  | mergedState (position : Nat) (frame : Frame)
  | interpreting (position : Nat) (mnemonic : String) (frame : Frame)
  /-- A call of a subroutine that is new, or whose frame changed. -/
  | callSite (position entry : Nat)
  | returning (position entry continuation : Nat)
  | argumentMismatch (expected found : VType)
  | verified (method : String) (states subroutines : Nat)
  | listed (copy : ListedCopy)
  /-- A method did not pass the type checker and is verified by inference instead. -/
  | fallingBack (method cause : String)
  | failed (method cause : String)
  | stackMapKept (method : String)
  | stackMapDropped (method : String)
  | inlined (method : String) (before after : Nat)
  | reading (path : String)
  | writing (path : String) (inlined unchanged failed : Nat)
  deriving DecidableEq, Repr

namespace Event

def level : Event → Level
  | .failed _ _ => .error
  | .stackMapKept _ | .stackMapDropped _ => .warning
  | .fallingBack _ _ | .reading _ | .writing _ _ _ _ => .info
  | .verifying _ | .verified _ _ _ | .argumentMismatch _ _ | .listed _ | .inlined _ _ _ => .debug
  | .decoded _ _ _ | .newState _ _ | .mergedState _ _ | .interpreting _ _ _ | .callSite _ _
  | .returning _ _ _ => .trace

/-- Fill a text up to a width with blanks in front. -/
def padLeft (width : Nat) (text : String) : String :=
  String.ofList (List.replicate (width - text.length) ' ') ++ text

/-- Fill a text up to a width with blanks behind. -/
def padRight (width : Nat) (text : String) : String :=
  text ++ String.ofList (List.replicate (width - text.length) ' ')

/-- A line of the listing of inlined code. -/
def copyLine (copy : ListedCopy) : String :=
  let place := padLeft 5 (toString copy.newPosition)
  let mnemonic := padRight 14 copy.mnemonic
  let origin := padRight 5 (toString copy.oldPosition)
  s!"{place}: {mnemonic} was {origin} in {copy.call} // {copy.disposition}"

def message : Event → String
  | .verifying method => s!"Verifying {method} by type inference"
  | .decoded mnemonic position size => s!"decoded {mnemonic} at {position} ({size} bytes)"
  | .newState position frame => s!"new type state at {position}: {frame.listing}"
  | .mergedState position frame => s!"merged type state at {position}: {frame.listing}"
  | .interpreting position mnemonic frame => s!"{position}: {mnemonic} {frame.listing}"
  | .callSite position entry => s!"call site {position} for subroutine {entry} is new or changed"
  | .returning position entry continuation =>
    s!"ret at {position} returns from subroutine {entry} to {continuation}"
  | .argumentMismatch expected found =>
    s!"Incompatible argument types: found {found.render} but expected {expected.render}"
  | .verified method states subroutines =>
    s!"Verified {method} ({states} type states, {subroutines} subroutines)"
  | .listed copy => copyLine copy
  | .fallingBack method cause =>
    s!"Type checking {method} failed ({cause}), falling back to type inference"
  | .failed method cause => s!"{method}: {cause}"
  | .stackMapKept method => s!"Leaving {method} unchanged since it has a StackMapTable"
  | .stackMapDropped method => s!"Dropping the StackMapTable of {method}"
  | .inlined method before after => s!"Rewrote {method} ({before} bytes of code became {after})"
  | .reading path => s!"Reading '{path}'"
  | .writing path done unchanged failures =>
    s!"Writing '{path}' ({done} rewritten, {unchanged} unchanged, {failures} failed)"

/-- Is the event told to someone who wants this much detail? -/
def isShown (e : Event) (wanted : Level) : Bool := e.level.detail ≤ wanted.detail

/-- Level and message. -/
def line (e : Event) : String := s!"{e.level.name} {e.message}"

end Event

/-- A result, with what happened on the way to it. -/
structure Traced (α : Type) where
  value : α
  events : List Event

namespace Traced

variable {α β : Type}

instance : Monad Traced where
  pure a := ⟨a, []⟩
  bind x f :=
    let y := f x.value
    ⟨y.value, x.events ++ y.events⟩

/-- Only tell that something happened. -/
def tell (e : Event) : Traced Unit := ⟨(), [e]⟩

/-- The lines for someone who wants this much detail. -/
def lines (x : Traced α) (wanted : Level) : List String :=
  (x.events.filter fun e => e.isShown wanted).map Event.line

end Traced

end Bytecode
