import Bytecode.Verification.Progress

/-!
# Verification by inference

The types at every place where paths meet are found as a fixed point, starting from the entry of the method
and looking at code again whenever the frame flowing into it becomes more general.  `Session.run` ends because
every round advances (`Session.round_advances`).
-/

namespace Bytecode

namespace Session

/-- Look at places until the worklist is empty. -/
def run (setup : Setup) (s : Session) : Attempt Session :=
  match _hw : s.worklist with
  | [] => .ok s
  | position :: rest =>
    match _h : { s with worklist := rest }.round setup position with
    | .error e => .error e
    | .ok t => run setup t
termination_by (s.gaps, s.potential, s.worklist.length)
decreasing_by
  rcases round_advances _h with (hgaps | ⟨hgaps, hpotential⟩) | ⟨hgaps, hpotential, hwork⟩
  · exact Prod.Lex.left _ _ hgaps
  · have hgaps' : t.gaps = s.gaps := hgaps
    rw [hgaps']
    exact Prod.Lex.right _ (Prod.Lex.left _ _ hpotential)
  · have hgaps' : t.gaps = s.gaps := hgaps
    have hpotential' : t.potential = s.potential := hpotential
    rw [hgaps', hpotential', hwork, _hw]
    exact Prod.Lex.right _ (Prod.Lex.right _ (by simp))

/-- What was learned once nothing changes any more. -/
def verified (s : Session) (body : Body) : Verified where
  body
  states := s.states
  subroutines := s.registry
  returnStores := s.returnStores
  jsrRets := s.jsrRets
  framesPopped := s.framesPopped
  visited := s.visited
  active := Verified.activeOnto s.states s.visited none #[] body.toList

end Session

namespace Inference

/-- Check the positions of an exception handler and read its type. -/
def resolveHandler (method : Method) (body : Body) (h : ExceptionHandler) :
    Except VerifyError Handler := do
  let start := h.startPc.toNat
  let stop := h.endPc.toNat
  let target := h.handlerPc.toNat
  body.checkPosition start false
  body.checkPosition stop true
  body.checkPosition target false
  if stop ≤ start then throw (.nowhere (.invalidTarget stop))
  if h.catchType = 0 then return ⟨start, stop, target, .ofClass .throwable⟩
  match ← atPosition target (method.constants.classType h.catchType) with
  | .object name => return ⟨start, stop, target, .ofClass name⟩
  | .array _ _ => throw (.located target (.badConstant .arrayCaught))

/-- Places that control can reach from elsewhere than the instruction in front: positions named by
instructions, places after calls of subroutines, and exception handlers. -/
def mergePoints (body : Body) (handlers : List Handler) : PositionSet :=
  let named := body.toList.flatMap fun i =>
    match i.flow with
    | .jsr target => [target, i.next]
    | _ => i.targets
  ((PositionSet.empty (body.codeLength + 1)).insertAll named).insertAll (handlers.map Handler.target)

/-- The events of decoding a body. -/
def decodingEvents (instructions : Tiling Instruction) : List Event :=
  instructions.items.map fun i => .decoded i.mnemonic i.position i.size

/-- What is needed before the first round: the body, the handlers and the frame at the entry. -/
def prepare (recording : Bool) (method : Method) : Except VerifyError (Setup × Frame) := do
  let body ← Body.decode method.code.bytes
  if body.size = 0 then throw (.located 0 .fallsOffEnd)
  let handlers ← method.code.exceptionTable.mapM (resolveHandler method body)
  let entry ← atPosition 0 (Frame.entry method.className method.isStatic method.isConstructor
    method.descriptor method.code.maxLocals.toNat)
  return (⟨method, body, handlers, mergePoints body handlers, recording⟩, entry)

/-- All rounds, from the entry of the method on. -/
def analyse (setup : Setup) (entry : Frame) : Attempt Session := do
  let s := Session.start setup.body.codeLength setup.method.code.maxLocals.toNat
  (← s.mergeInto setup 0 entry).run setup

/-- Verify a method by inference.  What happens is only told when it is recorded. -/
def verify (recording : Bool) (method : Method) : Traced (Except VerifyError Verified) :=
  let opening :=
    if recording then
      .verifying method.describe :: decodingEvents (Body.scan method.code.bytes).1
    else []
  match prepare recording method with
  | .error e => ⟨.error e, opening⟩
  | .ok (setup, entry) =>
    match analyse setup entry with
    | .error rejection => ⟨.error rejection.error, opening ++ rejection.events.reverse⟩
    | .ok s =>
      let closing :=
        if recording then [.verified method.describe s.states.size s.registry.size] else []
      ⟨.ok (s.verified setup.body), opening ++ s.events.reverse ++ closing⟩

end Inference

/-- Verify a method by inference, without telling what happens. -/
def Method.verify (method : Method) : Except VerifyError Verified :=
  (Inference.verify false method).value

end Bytecode
