import Bytecode.Failure
import Bytecode.Verification.Inference

/-!
# How the methods of a class are verified

Methods of old classes are verified by inference.  Since version 50 a class comes with types at its branch
targets, which a type checker can check instead.  If a class of version 50 fails that, inference has the last
word, unless falling back is not allowed.  Without a type checker, all methods are verified by inference.
-/

namespace Bytecode

/-- How a method was accepted. -/
inductive Verification where
  /-- By the type checker. -/
  | typeChecked
  /-- By inference, with what was learned. -/
  | inferred (verified : Verified)

/-- A type checker; the first argument says whether events are recorded. -/
abbrev TypeChecker := Bool → Method → Traced (Except VerifyError Verification)

/-- Inference in the place of a type checker. -/
def TypeChecker.inference : TypeChecker := fun recording method =>
  let result := Inference.verify recording method
  ⟨result.value.map .inferred, result.events⟩

/-- The verdict on a method, and whether the type checker was asked. -/
structure Verdict (ε : Type) where
  asked : Bool
  outcome : Except ε Verification

/-- How to choose between type checking and inference. -/
structure Policy where
  checker? : Option TypeChecker := none
  allowFallback : Bool := true

/-- The verdict on one method of a class. -/
structure MethodOutcome where
  index : Nat
  /-- Class, name and descriptor. -/
  method : String
  verdict : Verdict Failure

namespace Policy

/-- The type checker for classes of a version. -/
def checkerFor (p : Policy) (version : Version) : Option TypeChecker :=
  if version.atLeast .java6 then p.checker? else none

/-- Does inference have the last word on classes of a version? -/
def fallsBack (p : Policy) (version : Version) : Bool :=
  version.major == Version.java6.major && p.allowFallback

/-- Verify a method of a class with a version. -/
def verify (p : Policy) (recording : Bool) (version : Version) (method : Method) :
    Traced (Verdict VerifyError) := do
  match p.checkerFor version with
  | none => return ⟨false, ← TypeChecker.inference recording method⟩
  | some checker =>
    match ← checker recording method with
    | .ok verification => return ⟨true, .ok verification⟩
    | .error e =>
      if p.fallsBack version then
        Traced.tell (.fallingBack method.describe e.message)
        return ⟨true, ← TypeChecker.inference recording method⟩
      else return ⟨true, .error e⟩

/-- Verify a method of a class that has a body. -/
def verifyMember (p : Policy) (recording : Bool) (c : ClassFile) (m : Member) (code : Code) :
    Traced (Verdict Failure) := do
  match Method.ofMember c m code with
  | .error e => return ⟨false, .error (.format e)⟩
  | .ok method =>
    let verdict ← p.verify recording c.version method
    return ⟨verdict.asked, verdict.outcome.mapError .verify⟩

/-- The verdict on a method, if it has a body. -/
def verdictOn (p : Policy) (recording : Bool) (c : ClassFile) (m : Member) :
    Traced (Option (Verdict Failure)) :=
  match m.code? c.constants with
  | .ok none => return none
  | .ok (some code) => return some (← p.verifyMember recording c m code)
  | .error e => return some ⟨false, .error (.format e)⟩

/-- Verify the methods with these indices in turn, up to the first that fails unless told to go on. -/
def verifyMethods (p : Policy) (recording keepGoing : Bool) (c : ClassFile) :
    List (Member × Nat) → Traced (List MethodOutcome)
  | [] => return []
  | (m, index) :: rest => do
    match ← p.verdictOn recording c m with
    | none => p.verifyMethods recording keepGoing c rest
    | some verdict =>
      let outcome : MethodOutcome := ⟨index, c.describeMethod index, verdict⟩
      match verdict.outcome with
      | .ok _ => return outcome :: (← p.verifyMethods recording keepGoing c rest)
      | .error e =>
        Traced.tell (.failed outcome.method e.message)
        if keepGoing then return outcome :: (← p.verifyMethods recording keepGoing c rest)
        else return [outcome]

/-- Verify every method of a class that has a body. -/
def verifyClass (p : Policy) (recording keepGoing : Bool) (c : ClassFile) : Traced (List MethodOutcome) :=
  p.verifyMethods recording keepGoing c c.methods.zipIdx

end Policy

end Bytecode
