import Bytecode.Event
import Bytecode.Verification.Execution
import Bytecode.Verification.Method

/-!
# Steps of inference

Inference looks at code again and again, from places whose frame became more general, until nothing changes.
This module holds its state (`Session`) and all that one round does with it:

* `Session.mergeInto` merges a frame into the state of a place and puts the place on the worklist when that
  changed it;
* `Session.interpret` runs straight through the code from a place until control leaves it or comes to a
  place with a state of its own;
* `Session.interpretJsr` and `Session.interpretRet` enter and leave subroutines.  A `ret` returns to every
  known call of the subroutine; locals that the subroutine does not access come back as they were at the
  call.

A round fails with a `Rejection`, which also holds what happened up to then.
-/

namespace Bytecode

/-- An exception handler with its positions checked and its type read. -/
structure Handler where
  start : Nat
  stop : Nat
  target : Nat
  catchType : VType
  deriving DecidableEq, Repr

def Handler.covers (h : Handler) (position : Nat) : Bool := h.start ≤ position && position < h.stop

/-- What does not change while a method is verified. -/
structure Setup where
  method : Method
  body : Body
  handlers : List Handler
  /-- Places that control can reach from elsewhere than the instruction in front. -/
  mergePoints : PositionSet
  /-- Whether what happens is to be kept. -/
  recording : Bool

namespace Setup

def maxStack (setup : Setup) : Nat := setup.method.code.maxStack.toNat

def context (setup : Setup) (position : Nat) : ExecutionContext where
  position
  maxStack := setup.maxStack
  thisClass := setup.method.className
  returnType := setup.method.descriptor.returnType
  constants := setup.method.constants

end Setup

/-- A `jsr` that was reached: whom it calls, and the frame right before it. -/
structure CallSite where
  entry : Nat
  frame : Frame
  deriving DecidableEq, Repr

/-- What is known while a method is verified. -/
structure Session where
  states : PositionMap TypeState
  /-- Places to look at, in order and without repetition. -/
  worklist : List Nat
  registry : Registry
  calls : PositionMap CallSite
  /-- The frame right before each `ret`, from the last time it was looked at. -/
  retFrames : PositionMap Frame
  jsrRets : PositionMap Nat
  framesPopped : PositionMap Nat
  returnStores : PositionSet
  visited : PositionSet
  /-- What happened, the latest first. -/
  events : List Event

/-- Why a method is refused, and what happened up to then (the latest first). -/
structure Rejection where
  error : VerifyError
  events : List Event

/-- The result of a part of a round. -/
abbrev Attempt := Except Rejection

namespace Session

/-- Nothing is known of code with so many bytes. -/
def start (codeLength maxLocals : Nat) : Session where
  states := .empty codeLength
  worklist := []
  registry := .empty maxLocals
  calls := .empty codeLength
  retFrames := .empty codeLength
  jsrRets := .empty codeLength
  framesPopped := .empty codeLength
  returnStores := .empty codeLength
  visited := .empty codeLength
  events := []

/-- Keep an event, if events are kept. -/
def note (s : Session) (setup : Setup) (e : Event) : Session :=
  if setup.recording then { s with events := e :: s.events } else s

/-- Refuse the method. -/
def reject {α : Type} (s : Session) (error : VerifyError) : Attempt α := .error ⟨error, s.events⟩

/-- Go on with a value, or refuse the method because of the instruction at a position. -/
def require {α : Type} (s : Session) (setup : Setup) (position : Nat) :
    Except VerifyFault α → Attempt α
  | .ok a => .ok a
  | .error (.incompatibleArgument expected found) =>
    (s.note setup (.argumentMismatch expected found)).reject
      (.located position (.incompatibleArgument expected found))
  | .error fault => s.reject (.located position fault)

/-- Put a place on the worklist, unless it is there. -/
def enqueue (s : Session) (position : Nat) : Session :=
  if s.worklist.contains position then s else { s with worklist := s.worklist ++ [position] }

def enqueueAll (s : Session) (positions : List Nat) : Session := positions.foldl enqueue s

/-- Merge a frame that arrives at a place into the state there. -/
def mergeInto (s : Session) (setup : Setup) (position : Nat) (frame : Frame) : Attempt Session :=
  match s.states.slot? position with
  | none => s.reject (.nowhere (.invalidTarget position))
  | some none =>
    let s := s.note setup (.newState position frame)
    .ok ({ s with states := s.states.insert position (.fresh position frame) }.enqueue position)
  | some (some state) =>
    match state.merge frame with
    | .error fault => s.reject (.located position fault)
    | .ok (false, _) => .ok s
    | .ok (true, merged) =>
      let s := s.note setup (.mergedState position merged.frame)
      .ok ({ s with states := s.states.insert position merged }.enqueue position)

/-- Merge a frame into the handler of an exception. -/
def mergeHandler (setup : Setup) (frame : Frame) (s : Session) (h : Handler) : Attempt Session :=
  let caught : Frame := ⟨frame.locals, [], frame.nesting⟩
  match s.require setup h.target (caught.push h.catchType setup.maxStack) with
  | .error e => .error e
  | .ok caught => s.mergeInto setup h.target caught

/-- Merge a frame into every handler that covers a position. -/
def mergeHandlers (s : Session) (setup : Setup) (position : Nat) (frame : Frame) : Attempt Session :=
  (setup.handlers.filter fun h => h.covers position).foldlM (mergeHandler setup frame) s

/-- Merge a frame into several places, one after the other. -/
def mergeIntoAll (s : Session) (setup : Setup) (positions : List Nat) (frame : Frame) :
    Attempt Session :=
  positions.foldlM (fun s position => s.mergeInto setup position frame) s

/-! ## Subroutines -/

/-- Note a call, and whether it is the first from this `jsr` or comes with a more general frame. -/
def recordCall (s : Session) (position entry : Nat) (frame : Frame) : Option (Session × Bool × Bool) :=
  match s.calls.slot? position with
  | none => none
  | some none => some ({ s with calls := s.calls.insert position ⟨entry, frame⟩ }, true, false)
  | some (some call) =>
    let merged := call.frame.absorb frame
    if merged = call.frame then some (s, false, false)
    else some ({ s with calls := s.calls.insert position { call with frame := merged } }, false, true)

/-- The frame in which a subroutine starts: the return address is on the stack, and uninitialized objects
do not come along. -/
def subroutineEntry (setup : Setup) (entry : Nat) (frame : Frame) (registry : Registry) :
    Except VerifyFault (Frame × Registry) := do
  let frame ← frame.push (.returnAddress entry) setup.maxStack
  let nesting ← frame.nesting.enter entry
  return { frame with nesting }.killUninitialized registry

/-- Call a subroutine.  A new call, and one whose frame changed, has to be returned to again. -/
def interpretJsr (s : Session) (setup : Setup) (i : Instruction) (entry : Nat) (frame : Frame) :
    Attempt Session :=
  match s.recordCall i.position entry frame with
  | none => s.reject (.nowhere (.invalidTarget i.position))
  | some (s, isNew, isChanged) =>
    let registry := (s.registry.register entry).modify entry fun r => r.addRetTarget i.next
    let s := { s with registry }
    match s.require setup i.position (subroutineEntry setup entry frame s.registry) with
    | .error e => .error e
    | .ok (start, registry) =>
      match { s with registry }.mergeInto setup entry start with
      | .error e => .error e
      | .ok s =>
        if isNew || isChanged then
          let s := s.note setup (.callSite i.position entry)
          let rets := (s.registry.get? entry).elim [] Subroutine.retInstructions
          .ok (s.enqueueAll (if isNew then entry :: rets else rets))
        else .ok s

/-- The frame after a call: locals that the subroutine accesses are as at the `ret`, the others and the
one with the return address as at the call. -/
def returnedFrame (call ret : Frame) (returnLocal : Nat) (accessed : Nat → Bool) : Frame :=
  let locals := (call.locals.zip ret.locals).zipIdx.map fun ((atCall, atRet), index) =>
    if index = returnLocal || !accessed index then atCall else atRet
  ({ locals, stack := ret.stack, nesting := call.nesting } : Frame).normalizeLocals

/-- Return to one call of a subroutine: merge the frame after the call into the place after the `jsr`. -/
def returnTo (setup : Setup) (i : Instruction) (index : UInt16) (entry : Nat) (frame : Frame)
    (accessed : Nat → Bool) (s : Session) (call : Nat × CallSite) : Attempt Session :=
  let (jsr, site) := call
  if (s.jsrRets.get? jsr).any (· ≠ i.position) then s.reject (.located i.position .multipleReturns)
  else
    let s := { s with jsrRets := s.jsrRets.insert jsr i.position }
    match setup.body.startingAt? jsr with
    | none => s.reject (.located jsr .missingContinuation)
    | some caller =>
      if (setup.body.indexOf? caller.next).isNone then s.reject (.located jsr .fallsOffEnd)
      else
        let (returned, registry) :=
          (returnedFrame site.frame frame index.toNat accessed).killUninitialized s.registry
        let s := { s with registry }.note setup (.returning i.position entry caller.next)
        s.mergeInto setup caller.next returned

/-- Return from a subroutine, to all calls of it that are known. -/
def interpretRet (s : Session) (setup : Setup) (i : Instruction) (index : UInt16) (frame : Frame) :
    Attempt Session :=
  match frame.locals[index.toNat]? with
  | none => s.reject (.located i.position (.invalidLocal index))
  | some (.returnAddress entry) =>
    match s.require setup i.position (frame.nesting.leaveThrough entry) with
    | .error e => .error e
    | .ok (popped, _) =>
      if (s.framesPopped.get? i.position).any (· ≠ popped) then
        s.reject (.located i.position .inconsistentRetNesting)
      else
        match s.registry.get? entry with
        | none => s.reject (.located i.position .illegalReturn)
        | some subroutine =>
          let s := { s with
            framesPopped := s.framesPopped.insert i.position popped
            registry := s.registry.modify entry fun r => r.addRetInstruction i.position }
          let calls := s.calls.toList.filter fun call => call.2.entry = entry
          let accessed := (PositionSet.empty frame.locals.length).insertAll subroutine.accessed
          calls.foldlM (returnTo setup i index entry frame accessed.contains) s
  | some _ => s.reject (.located i.position (.notReturnAddress index))

/-! ## Straight-line code -/

/-- Does the operation store a return address? -/
def storesReturnAddress (op : Op) (frame : Frame) : Bool :=
  match op, frame.stack with
  | .store .reference _, .returnAddress _ :: _ => true
  | _, _ => false

/-- Run an operation.  Handlers that cover it see the locals before it and, if it writes one, after it.
Gives the frame for the next instruction, unless control leaves. -/
def interpretPlain (s : Session) (setup : Setup) (i : Instruction) (op : Op) (frame : Frame) :
    Attempt (Session × Option Frame) :=
  let s :=
    if storesReturnAddress op frame then { s with returnStores := s.returnStores.insert i.position }
    else s
  let (registry, result) := frame.execute op (setup.context i.position) s.registry
  let s := { s with registry }
  match s.require setup i.position result with
  | .error e => .error e
  | .ok after =>
    let next := if i.flags.stop then none else some after
    if i.flags.store then
      match s.mergeHandlers setup i.position after with
      | .error e => .error e
      | .ok s => .ok (s, next)
    else .ok (s, next)

/-- Look at one instruction with a frame.  Gives the frame for the next instruction, unless control
leaves. -/
def interpretOne (s : Session) (setup : Setup) (i : Instruction) (frame : Frame) :
    Attempt (Session × Option Frame) :=
  let s := { s with visited := s.visited.insert i.position }
  let s := s.note setup (.interpreting i.position i.mnemonic frame)
  match s.mergeHandlers setup i.position frame with
  | .error e => .error e
  | .ok s =>
    match i.flow with
    | .plain op => s.interpretPlain setup i op frame
    | .branch kind target =>
      match s.require setup i.position (frame.executeBranch kind) with
      | .error e => .error e
      | .ok frame =>
        match s.mergeInto setup target frame with
        | .error e => .error e
        | .ok s => .ok (s, if kind = .goto then none else some frame)
    | .select default cases =>
      match s.require setup i.position frame.executeSelect with
      | .error e => .error e
      | .ok frame =>
        match s.mergeIntoAll setup (default :: cases.targets) frame with
        | .error e => .error e
        | .ok s => .ok (s, none)
    | .jsr target =>
      match s.interpretJsr setup i target frame with
      | .error e => .error e
      | .ok s => .ok (s, none)
    | .ret index =>
      let s := { s with retFrames := s.retFrames.insert i.position frame }
      match s.interpretRet setup i index frame with
      | .error e => .error e
      | .ok s => .ok (s, none)

/-- Is the place looked at from its own state? -/
def isMerged (s : Session) (setup : Setup) (position : Nat) : Bool :=
  setup.mergePoints.contains position || s.states.contains position

/-- Run through the code from the instruction with an index on; `origin` is the place where this began. -/
def interpret (setup : Setup) (origin index : Nat) (frame : Frame) (s : Session) : Attempt Session :=
  match _h : setup.body.get? index with
  | none => s.reject (.located origin .fallsOffEnd)
  | some i =>
    if i.position ≠ origin && s.isMerged setup i.position then s.mergeInto setup i.position frame
    else
      match s.interpretOne setup i frame with
      | .error e => .error e
      | .ok (s, none) => .ok s
      | .ok (s, some frame) =>
        if setup.body.size ≤ index + 1 then s.reject (.located i.position .fallsOffEnd)
        else interpret setup origin (index + 1) frame s
termination_by setup.body.size - index
decreasing_by omega

/-- Run through the code from a place on. -/
def interpretAt (s : Session) (setup : Setup) (position : Nat) (frame : Frame) : Attempt Session :=
  match setup.body.indexOf? position with
  | none => s.reject (.nowhere (.invalidTarget position))
  | some index => interpret setup position index frame s

/-- One round: look at the code from a place on, with the frame of its state or, at a `ret`, the one it was
last looked at with. -/
def round (s : Session) (setup : Setup) (position : Nat) : Attempt Session :=
  match s.states.get? position, s.retFrames.get? position with
  | some state, _ =>
    let states := s.states.insert position { state with visited := true }
    { s with states }.interpretAt setup position state.frame
  | none, some frame => s.interpretAt setup position frame
  | none, none => .ok s

end Session

end Bytecode
