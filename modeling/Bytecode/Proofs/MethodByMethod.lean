import Bytecode.Proofs.ClassConversion

/-!
# Method by method

A conversion changes a class while methods that come later still have to be verified against it, and new code is put
under a name that may have to be added to the pool.  Nevertheless each method is converted as if it were alone.

* `Conversion.Changes`: a method before and after, from what is found out of it in the class before the conversion;
* `Conversion.accepted`: what both the conversion and the verification of a class find out of a method first.
-/

namespace Bytecode

namespace Conversion

variable {settings : Settings} {policy : Policy} {recording : Bool} {c : ClassFile} {m : Member}

/-! ## What becomes of one method -/

/-- What is found out of a method before it may be inlined: its code and how it was accepted, if it has code. -/
def accepted (policy : Policy) (recording : Bool) (c : ClassFile) (m : Member) :
    Except Failure (Option (Code × Verification)) :=
  match m.code? c.constants with
  | .error e => .error (.format e)
  | .ok none => .ok none
  | .ok (some code) => (fun verification => some (code, verification)) <$>
      (policy.verifyMember recording c m code).value.outcome

/-- Inline a method that was accepted by inference, if that is wanted. -/
def inlineAccepted (settings : Settings) (pool : ConstantPool) :
    Option (Code × Verification) → Except Failure (Option Code)
  | some (code, .inferred v) => if wantsInlining settings pool code v then some <$> v.inline code pool else .ok none
  | _ => .ok none

theorem newCode_eq : newCode settings policy recording c m =
    accepted policy recording c m >>= inlineAccepted settings c.constants := by
  unfold newCode accepted
  cases m.code? c.constants with
  | error e => rfl
  | ok code? =>
    cases code? with
    | none => rfl
    | some code =>
      dsimp only
      cases (policy.verifyMember recording c m code).value.outcome with
      | error e => rfl
      | ok verification => cases verification <;> rfl

/-- A method is looked at with the version, the constants and the name of its class. -/
theorem newCode_congr {c' : ClassFile} (hversion : c'.version = c.version) (hconstants : c'.constants = c.constants)
    (hname : c'.thisClass = c.thisClass) (m : Member) :
    newCode settings policy recording c' m = newCode settings policy recording c m := by
  cases c
  cases c'
  simp only at hversion hconstants hname
  subst hversion hconstants hname
  rfl

/-- What the outcome of a conversion makes of a method. -/
inductive Changes (pool : ConstantPool) (m : Member) : Except Failure (Option Code) → Member → Prop
  /-- Only the first attribute with code changes, and it keeps its name. -/
  | inlined {new : Code} {place : Nat} {index : ConstantIndex} (hplace : m.codeAttribute? pool = some place)
      (hname : ConstantPool.Numbered pool.constants → pool.utf8 index = .ok (attributeName Code)) :
      Changes pool m (.ok (some new)) { m with attributes := m.attributes.set place ⟨index, write new⟩ }
  | unchanged : Changes pool m (.ok none) m
  | failed {cause : Failure} : Changes pool m (.error cause) m

theorem changes_converted (settings : Settings) (policy : Policy) (recording : Bool) (c : ClassFile) (m : Member) :
    Changes c.constants m (newCode settings policy recording c m) (converted settings policy recording c m) := by
  unfold converted
  cases hcode : newCode settings policy recording c m with
  | error cause => exact .failed
  | ok code? =>
    cases code? with
    | none => exact .unchanged
    | some new =>
      obtain ⟨code, hold⟩ := exists_code_of_newCode hcode
      obtain ⟨place, index, hplace, hname, hrun⟩ := Member.replaceCode_of_code? hold new
      dsimp only
      rw [hrun]
      exact .inlined hplace hname

/-! ## Verification of a class -/

/-- Whether methods fail or not, the verdict on each of them is given. -/
theorem value_verifyMethods (methods : List (Member × Nat)) :
    (policy.verifyMethods recording true c methods).value = methods.filterMap fun method =>
      (policy.verdictOn recording c method.1).value.map fun verdict =>
        ⟨method.2, c.describeMethod method.2, verdict⟩ := by
  induction methods with
  | nil => rfl
  | cons method methods ih =>
    obtain ⟨m, index⟩ := method
    rw [Policy.verifyMethods, Traced.value_bind, List.filterMap_cons]
    dsimp only
    cases (policy.verdictOn recording c m).value with
    | none => exact ih
    | some verdict =>
      dsimp only [Option.map_some]
      rw [← ih]
      cases verdict.outcome with
      | ok verification => rfl
      | error e => rfl

/-- A method fails to be verified exactly if it is not accepted, for the same reason. -/
theorem verdictOn_eq_error {e : Failure} :
    (∃ verdict, (policy.verdictOn recording c m).value = some verdict ∧ verdict.outcome = .error e) ↔
      accepted policy recording c m = .error e := by
  unfold Policy.verdictOn accepted
  cases m.code? c.constants with
  | error e' =>
    show (∃ verdict : Verdict Failure, some ⟨false, .error (.format e')⟩ = some verdict ∧
      verdict.outcome = .error e) ↔ (Except.error (.format e') : Except Failure (Option (Code × Verification))) = .error e
    simp
  | ok code? =>
    cases code? with
    | none =>
      show (∃ verdict : Verdict Failure, none = some verdict ∧ verdict.outcome = .error e) ↔
        (Except.ok none : Except Failure (Option (Code × Verification))) = .error e
      simp
    | some code =>
      show (∃ verdict, some (policy.verifyMember recording c m code).value = some verdict ∧
        verdict.outcome = .error e) ↔ _ <$> (policy.verifyMember recording c m code).value.outcome = .error e
      simp [map_eq_error]

/-- The errors in the verdicts on the methods of a class. -/
theorem mem_verifyClass {index : Nat} {e : Failure} :
    (∃ o ∈ (policy.verifyClass recording true c).value, o.index = index ∧ o.verdict.outcome = .error e) ↔
      ∃ m, c.methods[index]? = some m ∧ accepted policy recording c m = .error e := by
  unfold Policy.verifyClass
  rw [value_verifyMethods]
  simp only [List.mem_filterMap, List.mem_zipIdx_iff_getElem?, Prod.exists, Option.map_eq_some_iff,
    ← verdictOn_eq_error]
  constructor
  · rintro ⟨_, ⟨m, i, hm, verdict, hverdict, rfl⟩, rfl, he⟩
    exact ⟨m, hm, verdict, hverdict, he⟩
  · rintro ⟨m, hm, verdict, hverdict, he⟩
    exact ⟨_, ⟨m, index, hm, verdict, hverdict, rfl⟩, rfl, he⟩

theorem stopped_of_result_error {v : Conversion} {failure : MethodFailure} (h : v.result = .error failure) :
    v.stopped = some failure := by
  unfold result at h
  split at h
  · rename_i failure' hstopped
    rw [hstopped, Except.error.inj h]
  · simp at h

theorem forall₂_changes (settings : Settings) (policy : Policy) (recording : Bool) (c : ClassFile)
    (methods : List Member) :
    List.Forall₂ (fun m m' => Changes c.constants m (newCode settings policy recording c m) m') methods
      (methods.map (converted settings policy recording c)) := by
  rw [List.forall₂_map_right_iff, List.forall₂_same]
  exact fun m _ => changes_converted settings policy recording c m

end Conversion

open Conversion

/-- **Each method of a class is converted for itself.**  What becomes of a method depends on the version, the constants
and the name of the class and on the method itself.  If the conversion ends, every method is changed by its own outcome
and reported once, and nothing else of the class changes.  If it stops, it does so at the first method that fails, and
this method and those behind it are as they were.  With the verification of the class, the conversion shares the
failures before inlining. -/
theorem methods_converted_alone (c : ClassFile) (settings : Settings) (checker? : Option TypeChecker)
    (recording : Bool) :
    let policy := settings.policy checker?
    let outcome := newCode settings policy recording
    let v := (c.convert settings checker? recording).value
    (∀ c' : ClassFile, c'.version = c.version → c'.constants = c.constants → c'.thisClass = c.thisClass →
      ∀ m, outcome c' m = outcome c m) ∧
    (∀ report, v.result = .ok report →
      (∃ methods, v.classFile = { c with methods } ∧
        List.Forall₂ (fun m m' => Changes c.constants m (outcome c m) m') c.methods methods) ∧
      report = reportOn (outcome c) c.describeMethod c.methods.zipIdx ∧
      report.inlined.length + report.unchanged + report.failures.length = c.methods.length ∧
      (settings.keepGoing = false → ∀ m ∈ c.methods, ∃ code?, outcome c m = .ok code?)) ∧
    (∀ failure, v.result = .error failure → settings.keepGoing = false ∧
      ∃ front m rest cause methods, c.methods = front ++ m :: rest ∧ outcome c m = .error cause ∧
        failure = ⟨c.describeMethod front.length, cause⟩ ∧ (∀ m' ∈ front, ∃ code?, outcome c m' = .ok code?) ∧
        v.classFile = { c with methods := methods ++ m :: rest } ∧
        List.Forall₂ (fun m m' => Changes c.constants m (outcome c m) m') front methods) ∧
    (∀ index m, (convertMethod settings policy recording c index m).value.2 =
        Option.map (replaceCode c index m) <$> outcome c m ∧
      outcome c m = accepted policy recording c m >>= inlineAccepted settings c.constants) ∧
    ∀ index e, (∃ o ∈ (policy.verifyClass recording true c).value, o.index = index ∧ o.verdict.outcome = .error e) ↔
      ∃ m, c.methods[index]? = some m ∧ accepted policy recording c m = .error e := by
  intro policy outcome v
  refine ⟨fun c' hversion hconstants hname m => newCode_congr hversion hconstants hname m, ?_, ?_,
    fun index m => ⟨convertMethod_eq index, newCode_eq⟩, fun index e => mem_verifyClass⟩
  · intro report hresult
    have hafter := after_of_result hresult
    obtain ⟨-, rfl⟩ := stopped_of_result hresult
    refine ⟨⟨_, hafter.classFile_eq, forall₂_changes settings policy recording c c.methods⟩, hafter.report, ?_,
      hafter.codes⟩
    rw [show v.report = _ from hafter.report, length_reportOn, List.length_zipIdx]
  · intro failure hresult
    have hstopped := stopped_of_result_error hresult
    rcases (After.start settings policy recording c).run with hafter | ⟨hkeep, front, m, rest, cause, v', hafter, hcause, hclass, hfailed⟩
    · exact absurd (hstopped.symm.trans hafter.goes) (by simp)
    · refine ⟨hkeep, front, m, rest, cause, _, hafter.methods, hcause, ?_, hafter.codes hkeep, ?_,
        forall₂_changes settings policy recording c front⟩
      · exact Option.some.inj (hstopped.symm.trans hfailed)
      · exact hclass.trans hafter.classFile

/-- A method whose code is in these bytes. -/
def Member.withBody (info : List UInt8) : Member := ⟨Member.staticFlag, 3, 4, [⟨5, info⟩]⟩

/-- A class with a method that calls a subroutine, one whose code cannot be read, and one without code. -/
def ClassFile.threeMethods : ClassFile where
  version := ⟨49, 0⟩
  constants := ⟨.ofList 1 [.utf8 "Test", .classInfo 1, .utf8 "f", .utf8 "()V", .utf8 "Code"]⟩
  accessFlags := 1
  thisClass := 2
  superClass := 0
  interfaces := []
  fields := []
  methods := [.withBody (write Code.withCall), .withBody [0], ⟨0, 3, 4, []⟩]
  attributes := []

theorem ClassFile.exists_newCode_threeMethods : ∃ new, ∀ keepGoing,
    newCode { keepGoing } (Settings.policy { keepGoing } none) false .threeMethods (.withBody (write Code.withCall)) =
      .ok (some new) := by
  have htest : ((Member.withBody (write Code.withCall)).verifyWithin .threeMethods 8).any (fun found =>
      found.2.hasSubroutines && (found.2.inline found.1 ClassFile.threeMethods.constants).toOption.isSome &&
        !hasStackMaps found.1 ClassFile.threeMethods.constants) = true := by decide +kernel
  simp only [Option.any_eq_true, Bool.and_eq_true, Bool.not_eq_true', Option.isSome_iff_exists,
    toOption_eq_some] at htest
  obtain ⟨⟨code, v⟩, hwithin, ⟨hcalls, new, hinline⟩, hmaps⟩ := htest
  obtain ⟨method, hcode, hmethod, hverify⟩ := Member.verify_of_within hwithin
  refine ⟨new, fun keepGoing => ?_⟩
  rw [newCode_of_verify rfl hcode hmethod hverify, if_pos (by simp [wantsInlining, hcalls, hmaps])]
  exact map_eq_ok.mpr ⟨new, hinline, rfl⟩

/-- If the conversion goes on, the second method is reported to have failed.  Otherwise it stops there. -/
theorem threeMethods_converted_alone :
    (∃ report, (ClassFile.threeMethods.convert { keepGoing := true } none false).value.result = .ok report ∧
      report = ⟨["Test.f()V"], 1, [⟨"Test.f()V", .format .truncated⟩]⟩) ∧
    (∃ m, (ClassFile.threeMethods.convert {} none false).value.result = .error ⟨"Test.f()V", .format .truncated⟩ ∧
      (ClassFile.threeMethods.convert {} none false).value.classFile =
        { ClassFile.threeMethods with methods := m :: ClassFile.threeMethods.methods.tail }) ∧
    ∃ o ∈ ((Settings.policy { keepGoing := true } none).verifyClass false true .threeMethods).value,
      o.index = 1 ∧ o.verdict.outcome = .error (.format .truncated) := by
  obtain ⟨new, hfirst⟩ := ClassFile.exists_newCode_threeMethods
  have hunreadable : (Member.withBody [0]).code? ClassFile.threeMethods.constants = .error .truncated := by
    decide +kernel
  have hsecond : ∀ keepGoing, newCode { keepGoing } (Settings.policy { keepGoing } none) false .threeMethods
      (.withBody [0]) = .error (.format .truncated) := by
    intro keepGoing
    unfold newCode
    rw [hunreadable]
  have hthird : ∀ keepGoing, newCode { keepGoing } (Settings.policy { keepGoing } none) false .threeMethods
      ⟨0, 3, 4, []⟩ = .ok none := fun _ => rfl
  have hzip : ClassFile.threeMethods.methods.zipIdx =
      [(.withBody (write Code.withCall), 0), (.withBody [0], 1), (⟨0, 3, 4, []⟩, 2)] := rfl
  have hname : ∀ index < 3, ClassFile.threeMethods.describeMethod index = "Test.f()V" := by decide +kernel
  refine ⟨?_, ?_, ?_⟩
  · obtain ⟨-, hends, hstops, -⟩ := methods_converted_alone .threeMethods { keepGoing := true } none false
    cases hresult : (ClassFile.threeMethods.convert { keepGoing := true } none false).value.result with
    | error failure => exact absurd (hstops failure hresult).1 (by simp)
    | ok report =>
      refine ⟨report, rfl, ?_⟩
      rw [(hends report hresult).2.1, hzip]
      simp [reportOn, hfirst true, hsecond true, hthird true, hname]
  · obtain ⟨-, hends, hstops, -⟩ := methods_converted_alone .threeMethods {} none false
    cases hresult : (ClassFile.threeMethods.convert {} none false).value.result with
    | ok report =>
      obtain ⟨code?, hcode⟩ := (hends report hresult).2.2.2 rfl (.withBody [0]) (by simp [ClassFile.threeMethods])
      exact absurd ((hsecond false).symm.trans hcode) (by simp)
    | error failure =>
      obtain ⟨-, front, m, rest, cause, methods, hmethods, hcause, rfl, hfront, hclass, hchanges⟩ :=
        hstops failure hresult
      change [Member.withBody (write Code.withCall), .withBody [0], ⟨0, 3, 4, []⟩] = front ++ m :: rest at hmethods
      cases front with
      | nil =>
        obtain ⟨rfl, -⟩ := List.cons.inj hmethods
        exact absurd ((hfirst false).symm.trans hcause) (by simp)
      | cons first front =>
        obtain ⟨rfl, hrest⟩ := List.cons.inj hmethods
        cases front with
        | nil =>
          obtain ⟨rfl, rfl⟩ := List.cons.inj hrest
          obtain ⟨m', _, -, hnil, rfl⟩ := List.forall₂_cons_left_iff.mp hchanges
          obtain rfl := List.forall₂_nil_left_iff.mp hnil
          obtain rfl := Except.error.inj ((hsecond false).symm.trans hcause)
          exact ⟨m', by rw [List.length_singleton, hname 1 (by decide)], hclass⟩
        | cons second front =>
          obtain ⟨rfl, -⟩ := List.cons.inj hrest
          obtain ⟨code?, hcode⟩ := hfront (.withBody [0]) (by simp)
          exact absurd ((hsecond false).symm.trans hcode) (by simp)
  · obtain ⟨-, -, -, -, hverdicts⟩ := methods_converted_alone .threeMethods { keepGoing := true } none false
    refine (hverdicts 1 (.format .truncated)).mpr ⟨.withBody [0], rfl, ?_⟩
    unfold accepted
    rw [hunreadable]

end Bytecode
