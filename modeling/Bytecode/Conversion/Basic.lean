import Bytecode.Inlining.Basic
import Bytecode.Verification.Policy

/-!
# Conversion of classes

All methods of a class are verified, and those that use subroutines get code without them.  Nothing else of
the class changes.
-/

namespace Bytecode

/-- What to do with the methods of a class. -/
structure Settings where
  /-- Make the code of all methods anew that are verified by inference, also without subroutines. -/
  inlineAll : Bool := false
  /-- Let inference have the last word on classes of version 50. -/
  allowFallback : Bool := true
  /-- Leave a method that fails as it is and go on. -/
  keepGoing : Bool := false
  /-- Drop stack maps from new code; methods with stack maps are left alone otherwise. -/
  dropStackMaps : Bool := true
  deriving DecidableEq, Repr

/-- Failure of one method. -/
structure MethodFailure where
  /-- Class, name and descriptor. -/
  method : String
  cause : Failure
  deriving DecidableEq, Repr

def MethodFailure.message (f : MethodFailure) : String := s!"{f.method}: {f.cause.message}"

/-- What became of the methods of a class. -/
structure Report where
  /-- Methods with new code. -/
  inlined : List String
  /-- Number of methods left as they were. -/
  unchanged : Nat
  /-- Methods that failed. -/
  failures : List MethodFailure
  deriving DecidableEq, Repr

/-- A class on the way through its methods. -/
structure Conversion where
  /-- The class, with the new code so far. -/
  classFile : ClassFile
  /-- The methods so far. -/
  report : Report
  /-- How often the type checker was asked. -/
  asked : Nat
  /-- The failure that stopped the conversion. -/
  stopped : Option MethodFailure

namespace Conversion

/-- Before the first method. -/
def start (c : ClassFile) : Conversion := ⟨c, ⟨[], 0, []⟩, 0, none⟩

/-- The report, or the failure that stopped the conversion. -/
def result (v : Conversion) : Except MethodFailure Report :=
  match v.stopped with
  | some failure => .error failure
  | none => .ok v.report

/-- Replace the code of a method. -/
def replaceCode (c : ClassFile) (index : Nat) (m : Member) (code : Code) : ClassFile :=
  let (m, constants) := (m.replaceCode code).run c.constants
  { c with methods := c.methods.set index m, constants }

/-- Does a body come with stack maps? -/
def hasStackMaps (code : Code) (pool : ConstantPool) : Bool :=
  code.attributes.any fun a => a.isNamed Code.stackMapTable pool

/-- Inline a verified method; the class with its new code. -/
def inlineMethod (recording : Bool) (c : ClassFile) (index : Nat) (m : Member) (code : Code) (v : Verified) :
    Traced (Except Failure (Option ClassFile)) := do
  match ← v.inlineTraced recording code c.constants with
  | .error e => return .error e
  | .ok new =>
    Traced.tell (.inlined (c.describeMethod index) code.bytes.length new.bytes.length)
    return .ok (some (replaceCode c index m new))

/-- Inline a verified method if the settings want it; the class with its new code. -/
def inlineIfWanted (settings : Settings) (recording : Bool) (c : ClassFile) (index : Nat) (m : Member)
    (code : Code) (v : Verified) : Traced (Except Failure (Option ClassFile)) := do
  if !v.hasSubroutines && !settings.inlineAll then
    return .ok none
  else if hasStackMaps code c.constants then
    if settings.dropStackMaps then
      Traced.tell (.stackMapDropped (c.describeMethod index))
      inlineMethod recording c index m code v
    else
      Traced.tell (.stackMapKept (c.describeMethod index))
      return .ok none
  else inlineMethod recording c index m code v

/-- Verify a method and inline it if the settings want it.  The first part says whether the type checker
was asked. -/
def convertMethod (settings : Settings) (policy : Policy) (recording : Bool) (c : ClassFile) (index : Nat)
    (m : Member) : Traced (Bool × Except Failure (Option ClassFile)) := do
  match m.code? c.constants with
  | .error e => return (false, .error (.format e))
  | .ok none => return (false, .ok none)
  | .ok (some code) =>
    let verdict ← policy.verifyMember recording c m code
    match verdict.outcome with
    | .error e => return (verdict.asked, .error e)
    | .ok .typeChecked => return (verdict.asked, .ok none)
    | .ok (.inferred v) =>
      return (verdict.asked, ← inlineIfWanted settings recording c index m code v)

/-- Note what became of a method. -/
def note (v : Conversion) (settings : Settings) (method : String) (asked : Bool) :
    Except Failure (Option ClassFile) → Conversion
  | .ok (some c) =>
    { v with
      classFile := c
      asked := v.asked + asked.toNat
      report := { v.report with inlined := v.report.inlined ++ [method] } }
  | .ok none =>
    { v with
      asked := v.asked + asked.toNat
      report := { v.report with unchanged := v.report.unchanged + 1 } }
  | .error cause =>
    let failure : MethodFailure := ⟨method, cause⟩
    if settings.keepGoing then
      { v with
        asked := v.asked + asked.toNat
        report := { v.report with failures := v.report.failures ++ [failure] } }
    else { v with asked := v.asked + asked.toNat, stopped := some failure }

/-- Convert the methods with these indices in turn, until one stops the conversion. -/
def convertMethods (settings : Settings) (policy : Policy) (recording : Bool) :
    List (Member × Nat) → Conversion → Traced Conversion
  | [], v => return v
  | (m, index) :: rest, v => do
    let method := v.classFile.describeMethod index
    let (asked, outcome) ← convertMethod settings policy recording v.classFile index m
    if let .error cause := outcome then
      Traced.tell (.failed method cause.message)
    let v := v.note settings method asked outcome
    match v.stopped with
    | some _ => return v
    | none => convertMethods settings policy recording rest v

end Conversion

/-- The policy that settings ask for. -/
def Settings.policy (settings : Settings) (checker? : Option TypeChecker) : Policy :=
  ⟨checker?, settings.allowFallback⟩

/-- Convert a class. -/
def ClassFile.convert (c : ClassFile) (settings : Settings) (checker? : Option TypeChecker)
    (recording : Bool) : Traced Conversion :=
  Conversion.convertMethods settings (settings.policy checker?) recording c.methods.zipIdx (.start c)

end Bytecode
