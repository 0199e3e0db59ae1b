import Bytecode.Conversion.Basic
import Bytecode.Proofs.ClassReading
import Bytecode.Proofs.Recording
import Bytecode.Proofs.ReturnBindings
import Bytecode.Proofs.Reverification

/-!
# The conversion of classes

The methods of a class are converted one after the other.  What becomes of a method does not depend on the others:

* `Conversion.newCode`: the code that a method gets, if it gets any;
* `Member.replaceCode_of_code?`: the constants stay as they are when code is replaced, because the name of the attribute
  is among them;
* `Conversion.After`: a class after some of its methods, from the class before the conversion;
* `Conversion.After.step` and `Conversion.After.run`: one method, and all methods that are left.

A method gets new code if a call of a subroutine was reached in it (`Settled.hasSubroutines_iff_reaches`), and the new
code has no instruction of subroutines (`Verified.inline_plain`).
-/

namespace Bytecode

/-! ## Instructions of subroutines -/

/-- Does the instruction call a subroutine or return from one? -/
def Instruction.isOfSubroutine (i : Instruction) : Bool :=
  match i.flow with
  | .jsr _ | .ret _ => true
  | _ => false

theorem Instruction.isOfSubroutine_iff {i : Instruction} :
    i.isOfSubroutine = true ↔ (∃ entry, i.flow = .jsr entry) ∨ ∃ slot, i.flow = .ret slot := by
  unfold isOfSubroutine
  cases i.flow <;> simp

theorem Instruction.isOfSubroutine_eq_false_iff {i : Instruction} :
    i.isOfSubroutine = false ↔ (∀ entry, i.flow ≠ .jsr entry) ∧ ∀ slot, i.flow ≠ .ret slot := by
  rw [← Bool.not_eq_true, isOfSubroutine_iff, not_or, not_exists, not_exists]

/-- A call of a subroutine was reached. -/
def Verified.ReachesCall (v : Verified) : Prop :=
  ∃ (index : Nat) (jsr : Instruction) (entry : Nat), v.body.get? index = some jsr ∧ jsr.flow = .jsr entry ∧
    v.visited.contains jsr.position = true

namespace Settled

variable {method : Method} {v : Verified} {setup : Setup} {s : Session} {index : Nat} {i : Instruction}

/-- A method has subroutines if a call of one was reached. -/
theorem hasSubroutines_iff_reaches (h : Settled method v setup s) : v.hasSubroutines = true ↔ v.ReachesCall := by
  rw [h.hasSubroutines_iff]
  constructor
  · rintro ⟨entry, sub, hsub⟩
    obtain ⟨⟨index, jsr, frame, hjsr, hcall, hframe⟩, -⟩ := h.accounts entry sub hsub
    exact ⟨index, jsr, entry, hjsr, hcall, (h.visited_iff hjsr).mpr (Option.isSome_of_eq_some hframe)⟩
  · rintro ⟨index, jsr, entry, hjsr, hcall, hvisited⟩
    obtain ⟨frame, hframe⟩ := Option.isSome_iff_exists.mp ((h.visited_iff hjsr).mp hvisited)
    obtain ⟨sub, hsub⟩ := h.subroutine_of_call hjsr hcall hframe
    exact ⟨entry, sub, hsub⟩

/-- Where an instruction of subroutines is reached, a call is: a `ret` needs the address that a call left. -/
theorem reachesCall_of_visited (h : Settled method v setup s) (hi : v.body.get? index = some i)
    (hsubroutine : i.isOfSubroutine = true) (hvisited : v.visited.contains i.position = true) : v.ReachesCall := by
  rcases Instruction.isOfSubroutine_iff.mp hsubroutine with ⟨entry, hcall⟩ | ⟨slot, hret⟩
  · exact ⟨index, i, entry, hi, hcall, hvisited⟩
  · obtain ⟨frame, hframe⟩ := Option.isSome_iff_exists.mp ((h.visited_iff hi).mp hvisited)
    obtain ⟨entry, -, sub, -, hsub, -⟩ := h.returns_from_one hi hret hframe
    exact h.hasSubroutines_iff_reaches.mp (h.hasSubroutines_iff.mpr ⟨entry, sub, hsub⟩)

theorem decode_eq (h : Settled method v setup s) : Body.decode method.code.bytes = .ok v.body := by
  obtain ⟨entry, -, -, hprepare, -⟩ := h.explores
  obtain ⟨body, handlers, hbody, -, -, -, rfl⟩ := Inference.prepare_eq_ok.mp hprepare
  rw [hbody, h.body_eq]

theorem body_of_decode (h : Settled method v setup s) {body : Body}
    (hbody : Body.decode method.code.bytes = .ok body) : v.body = body :=
  Except.ok.inj (h.decode_eq.symm.trans hbody)

end Settled

/-! ## The code of a method -/

theorem find?_set_of_findIdx? {α : Type} {p : α → Bool} {as : List α} {place : Nat} {a : α}
    (h : as.findIdx? p = some place) (ha : p a = true) : (as.set place a).find? p = some a := by
  induction as generalizing place with
  | nil => simp at h
  | cons b as ih =>
    rw [List.findIdx?_cons] at h
    split at h
    · obtain rfl := Option.some.inj h
      rw [List.set_cons_zero, List.find?_cons_of_pos ha]
    · rename_i hb
      obtain ⟨place', hplace, rfl⟩ := Option.map_eq_some_iff.mp h
      rw [List.set_cons_succ, List.find?_cons_of_neg hb]
      exact ih hplace

theorem Attribute.isNamed_iff {a : Attribute} {name : String} {pool : ConstantPool} :
    a.isNamed name pool = true ↔ pool.utf8 a.nameIndex = .ok name := by
  unfold isNamed Attribute.name
  cases pool.utf8 a.nameIndex <;> simp

namespace Member

open Attribute (isNamed_iff)

variable {m : Member} {pool : ConstantPool} {code new : Code}

theorem code?_eq_some : m.code? pool = .ok (some code) ↔
    ∃ a, m.attributes.find? (fun a => a.isNamed (attributeName Code) pool) = some a ∧ a.decode Code = .ok code := by
  unfold code?
  split
  · rename_i hnone
    simp [hnone]
  · rename_i a hfind
    rw [hfind]
    constructor
    · intro h
      obtain ⟨code', hdecode, hcode⟩ := map_eq_ok.mp h
      obtain rfl := Option.some.inj hcode
      exact ⟨a, rfl, hdecode⟩
    · rintro ⟨_, heq, hdecode⟩
      obtain rfl := Option.some.inj heq
      exact map_eq_ok.mpr ⟨code, hdecode, rfl⟩

/-- A method that has code has an attribute with the name for it. -/
theorem exists_codeAttribute? (hcode : m.code? pool = .ok (some code)) :
    ∃ place index, m.codeAttribute? pool = some place ∧ pool.utf8 index = .ok (attributeName Code) := by
  obtain ⟨a, hfind, -⟩ := code?_eq_some.mp hcode
  have hnamed := List.find?_some hfind
  have hplace : (m.codeAttribute? pool).isSome := by
    rw [codeAttribute?, List.findIdx?_isSome, List.any_eq_true]
    exact ⟨a, List.mem_of_find?_eq_some hfind, hnamed⟩
  obtain ⟨place, hplace⟩ := Option.isSome_iff_exists.mp hplace
  exact ⟨place, a.nameIndex, hplace, isNamed_iff.mp hnamed⟩

/-- New code takes the place of the first attribute with code, if the name for it is found in the pool. -/
theorem run_replaceCode {place : Nat} {index : ConstantIndex} (hplace : m.codeAttribute? pool = some place)
    (hintern : (ConstantPool.internUtf8 (attributeName Code)).run pool = (index, pool)) (new : Code) :
    (m.replaceCode new).run pool = ({ m with attributes := m.attributes.set place ⟨index, write new⟩ }, pool) := by
  have hencode : (Attribute.encode new).run pool = pure (⟨index, write new⟩, pool) := by
    unfold Attribute.encode
    rw [StateT.run_bind, hintern]
    rfl
  unfold replaceCode
  rw [StateT.run_bind, hencode]
  simp only [pure_bind, StateT.run_bind, StateT.run_get, hplace]
  rfl

/-- A method that has code gets other code in its place, and the constants stay as they are. -/
theorem replaceCode_of_code? (hcode : m.code? pool = .ok (some code)) (new : Code) :
    ∃ place index, m.codeAttribute? pool = some place ∧
      (ConstantPool.Numbered pool.constants → pool.utf8 index = .ok (attributeName Code)) ∧
      (m.replaceCode new).run pool = ({ m with attributes := m.attributes.set place ⟨index, write new⟩ }, pool) := by
  obtain ⟨place, old, hplace, hname⟩ := exists_codeAttribute? hcode
  obtain ⟨index, hintern, hindex⟩ := ConstantPool.internUtf8_of_utf8 hname
  exact ⟨place, index, hplace, hindex, run_replaceCode hplace hintern new⟩

/-- The attribute with the new code is the one that is found when code is read. -/
theorem find?_replaceCode (hpool : ConstantPool.Numbered pool.constants) (hcode : m.code? pool = .ok (some code)) :
    ∃ index, ((m.replaceCode new).run pool).1.attributes.find? (fun a => a.isNamed (attributeName Code) pool) =
      some ⟨index, write new⟩ := by
  obtain ⟨place, index, hplace, hname, hrun⟩ := replaceCode_of_code? hcode new
  rw [hrun]
  exact ⟨index, find?_set_of_findIdx? hplace (isNamed_iff.mpr (hname hpool))⟩

/-- The code that was put into a method is read from it again. -/
theorem bytes_of_replaceCode (hpool : ConstantPool.Numbered pool.constants) (hcode : m.code? pool = .ok (some code))
    (hfits : new.bytes.length < 2 ^ 32) :
    ((m.replaceCode new).run pool).1.code? pool ≠ .ok none ∧
      ∀ code', ((m.replaceCode new).run pool).1.code? pool = .ok (some code') → code'.bytes = new.bytes := by
  obtain ⟨index, hfind⟩ := find?_replaceCode hpool hcode
  constructor
  · unfold code?
    rw [hfind]
    intro hnone
    obtain ⟨_, -, hsome⟩ := map_eq_ok.mp hnone
    simp at hsome
  · intro code' hcode'
    obtain ⟨a, hfind', hdecode⟩ := code?_eq_some.mp hcode'
    obtain rfl := Option.some.inj (hfind.symm.trans hfind')
    exact Code.bytes_of_decode hfits hdecode

end Member

/-! ## One method after the other -/

theorem Traced.value_bind {α β : Type} (x : Traced α) (f : α → Traced β) : (x >>= f).value = (f x.value).value := rfl

theorem Verified.value_inlineTraced (v : Verified) (recording : Bool) (code : Code) (pool : ConstantPool) :
    (v.inlineTraced recording code pool).value = v.inline code pool := by
  unfold inline inlineTraced
  cases v.layout <;> rfl

namespace Conversion

variable {settings : Settings} {policy : Policy} {recording : Bool} {c : ClassFile} {m : Member}

/-- Are settings such that a verified method is to be inlined? -/
def wantsInlining (settings : Settings) (pool : ConstantPool) (code : Code) (v : Verified) : Bool :=
  (v.hasSubroutines || settings.inlineAll) && (!hasStackMaps code pool || settings.dropStackMaps)

/-- The code that a method gets, if it gets any. -/
def newCode (settings : Settings) (policy : Policy) (recording : Bool) (c : ClassFile) (m : Member) :
    Except Failure (Option Code) :=
  match m.code? c.constants with
  | .error e => .error (.format e)
  | .ok none => .ok none
  | .ok (some code) =>
    match (policy.verifyMember recording c m code).value.outcome with
    | .error e => .error e
    | .ok .typeChecked => .ok none
    | .ok (.inferred v) =>
      if wantsInlining settings c.constants code v then some <$> v.inline code c.constants else .ok none

theorem inlineMethod_eq (index : Nat) (code : Code) (v : Verified) :
    (inlineMethod recording c index m code v).value = (some ∘ replaceCode c index m) <$> v.inline code c.constants := by
  unfold inlineMethod
  rw [Traced.value_bind, Verified.value_inlineTraced]
  cases v.inline code c.constants with
  | error e => rfl
  | ok new => rfl

theorem inlineIfWanted_eq (index : Nat) (code : Code) (v : Verified) :
    (inlineIfWanted settings recording c index m code v).value =
      if wantsInlining settings c.constants code v then (some ∘ replaceCode c index m) <$> v.inline code c.constants
      else .ok none := by
  unfold inlineIfWanted wantsInlining
  rw [← Bool.not_or]
  cases v.hasSubroutines || settings.inlineAll with
  | false => rfl
  | true =>
    cases hasStackMaps code c.constants with
    | false => exact inlineMethod_eq index code v
    | true =>
      cases settings.dropStackMaps with
      | false => rfl
      | true => exact inlineMethod_eq index code v

/-- Converting a method puts its new code into it. -/
theorem convertMethod_eq (index : Nat) : (convertMethod settings policy recording c index m).value.2 =
    Option.map (replaceCode c index m) <$> newCode settings policy recording c m := by
  unfold convertMethod newCode
  cases m.code? c.constants with
  | error e => rfl
  | ok code? =>
    cases code? with
    | none => rfl
    | some code =>
      dsimp only
      rw [Traced.value_bind]
      cases (policy.verifyMember recording c m code).value.outcome with
      | error e => rfl
      | ok verification =>
        cases verification with
        | typeChecked => rfl
        | inferred v =>
          show (inlineIfWanted settings recording c index m code v).value = _
          rw [inlineIfWanted_eq]
          dsimp only
          split
          · cases v.inline code c.constants <;> rfl
          · rfl

/-- A method with its new code. -/
def converted (settings : Settings) (policy : Policy) (recording : Bool) (c : ClassFile) (m : Member) : Member :=
  match newCode settings policy recording c m with
  | .ok (some code) => ((m.replaceCode code).run c.constants).1
  | _ => m

/-- A method has code before it gets new code. -/
theorem exists_code_of_newCode {new : Code} (h : newCode settings policy recording c m = .ok (some new)) :
    ∃ code, m.code? c.constants = .ok (some code) := by
  unfold newCode at h
  split at h
  · simp at h
  · simp at h
  · rename_i code hcode
    exact ⟨code, hcode⟩

theorem value_convertMethods_cons (index : Nat) (rest : List (Member × Nat)) (v : Conversion) :
    (convertMethods settings policy recording ((m, index) :: rest) v).value =
      let outcome := (convertMethod settings policy recording v.classFile index m).value
      let next := v.note settings (v.classFile.describeMethod index) outcome.1 outcome.2
      match next.stopped with
      | some _ => next
      | none => (convertMethods settings policy recording rest next).value := by
  rw [convertMethods, Traced.value_bind]
  generalize (convertMethod settings policy recording v.classFile index m).value = result
  obtain ⟨asked, outcome⟩ := result
  cases outcome with
  | error cause =>
    dsimp only
    rw [Traced.value_bind]
    cases hstopped : (v.note settings (v.classFile.describeMethod index) asked (.error cause)).stopped with
    | none => rfl
    | some failure => rfl
  | ok c? =>
    dsimp only
    cases hstopped : (v.note settings (v.classFile.describeMethod index) asked (.ok c?)).stopped with
    | none => rfl
    | some failure => rfl

/-! ## What is reported -/

/-- The report on methods, from what becomes of them. -/
def reportOn (outcome : Member → Except Failure (Option Code)) (describe : Nat → String)
    (methods : List (Member × Nat)) : Report where
  inlined := methods.filterMap fun (m, index) =>
    match outcome m with
    | .ok (some _) => some (describe index)
    | _ => none
  unchanged := methods.countP fun (m, _) =>
    match outcome m with
    | .ok none => true
    | _ => false
  failures := methods.filterMap fun (m, index) =>
    match outcome m with
    | .error cause => some ⟨describe index, cause⟩
    | _ => none

theorem reportOn_append (outcome : Member → Except Failure (Option Code)) (describe : Nat → String)
    (methods : List (Member × Nat)) (m : Member) (index : Nat) :
    reportOn outcome describe (methods ++ [(m, index)]) =
      let report := reportOn outcome describe methods
      match outcome m with
      | .ok (some _) => { report with inlined := report.inlined ++ [describe index] }
      | .ok none => { report with unchanged := report.unchanged + 1 }
      | .error cause => { report with failures := report.failures ++ [⟨describe index, cause⟩] } := by
  unfold reportOn
  cases houtcome : outcome m with
  | error cause => simp [houtcome]
  | ok code? => cases code? <;> simp [houtcome]

/-- Every method is in one part of the report. -/
theorem length_reportOn (outcome : Member → Except Failure (Option Code)) (describe : Nat → String)
    (methods : List (Member × Nat)) :
    (reportOn outcome describe methods).inlined.length + (reportOn outcome describe methods).unchanged +
      (reportOn outcome describe methods).failures.length = methods.length := by
  induction methods using List.reverseRecOn with
  | nil => rfl
  | append_singleton methods method ih =>
    obtain ⟨m, index⟩ := method
    rw [reportOn_append, List.length_append, List.length_singleton, ← ih]
    cases outcome m with
    | error cause =>
      simp only [List.length_append, List.length_singleton]
      omega
    | ok code? =>
      cases code? with
      | none =>
        dsimp only
        omega
      | some new =>
        simp only [List.length_append, List.length_singleton]
        omega

/-! ## One method after the other -/

/-- A class after some of its methods: they are converted and reported, all else is as in the class before. -/
structure After (settings : Settings) (policy : Policy) (recording : Bool) (c : ClassFile) (front rest : List Member)
    (v : Conversion) : Prop where
  methods : c.methods = front ++ rest
  classFile : v.classFile = { c with methods := front.map (converted settings policy recording c) ++ rest }
  report : v.report = reportOn (newCode settings policy recording c) c.describeMethod front.zipIdx
  goes : v.stopped = none
  codes : settings.keepGoing = false → ∀ m ∈ front, ∃ code?, newCode settings policy recording c m = .ok code?

theorem After.start (settings : Settings) (policy : Policy) (recording : Bool) (c : ClassFile) :
    After settings policy recording c [] c.methods (.start c) :=
  ⟨rfl, rfl, rfl, rfl, by simp⟩

variable {front rest : List Member} {v : Conversion}

/-- A method has the same name before and during the conversion. -/
theorem After.describeMethod_eq (h : After settings policy recording c front (m :: rest) v) :
    v.classFile.describeMethod front.length = c.describeMethod front.length := by
  rw [h.classFile]
  unfold ClassFile.describeMethod
  simp [h.methods, ClassFile.name]

/-- What is noted of the next method, in terms of the class before the conversion. -/
theorem After.outcome_eq (h : After settings policy recording c front (m :: rest) v) :
    (convertMethod settings policy recording v.classFile front.length m).value.2 =
      Option.map (replaceCode v.classFile front.length m) <$> newCode settings policy recording c m := by
  rw [convertMethod_eq, h.classFile]
  rfl

/-- The class with new code for the next method. -/
theorem After.replaceCode_eq (h : After settings policy recording c front (m :: rest) v) {new : Code}
    (hnew : newCode settings policy recording c m = .ok (some new)) :
    replaceCode v.classFile front.length m new =
      { c with methods := (front ++ [m]).map (converted settings policy recording c) ++ rest } := by
  obtain ⟨code, hcode⟩ := exists_code_of_newCode hnew
  obtain ⟨place, index, -, -, hrun⟩ := Member.replaceCode_of_code? hcode new
  have hconverted : converted settings policy recording c m =
      { m with attributes := m.attributes.set place ⟨index, write new⟩ } := by
    unfold converted
    rw [hnew]
    dsimp only
    rw [hrun]
  unfold replaceCode
  rw [h.classFile]
  dsimp only
  rw [hrun, List.map_append, List.map_singleton, hconverted]
  simp

/-- One more method: it is converted and reported, or the conversion stops with the class as it is. -/
theorem After.step (h : After settings policy recording c front (m :: rest) v) (asked : Bool) :
    let next := v.note settings (v.classFile.describeMethod front.length) asked
      (convertMethod settings policy recording v.classFile front.length m).value.2
    After settings policy recording c (front ++ [m]) rest next ∨
      settings.keepGoing = false ∧ ∃ cause, newCode settings policy recording c m = .error cause ∧
        next.classFile = v.classFile ∧ next.report = v.report ∧
        next.stopped = some ⟨c.describeMethod front.length, cause⟩ := by
  have hmethods : c.methods = (front ++ [m]) ++ rest := by
    rw [h.methods, List.append_assoc, List.singleton_append]
  have hzip : (front ++ [m]).zipIdx = front.zipIdx ++ [(m, front.length)] := by
    simp [List.zipIdx_append]
  -- the method is left as it is
  have hsame : converted settings policy recording c m = m →
      v.classFile = { c with methods := (front ++ [m]).map (converted settings policy recording c) ++ rest } := by
    intro hm
    rw [h.classFile, List.map_append, List.map_singleton, hm, List.append_assoc, List.singleton_append]
  have hcodes : (∃ code?, newCode settings policy recording c m = .ok code?) → settings.keepGoing = false →
      ∀ m' ∈ front ++ [m], ∃ code?, newCode settings policy recording c m' = .ok code? := by
    intro hm hkeep m' hm'
    rcases List.mem_append.mp hm' with hold | hlast
    · exact h.codes hkeep m' hold
    · exact List.mem_singleton.mp hlast ▸ hm
  have hreport := reportOn_append (newCode settings policy recording c) c.describeMethod front.zipIdx m front.length
  rw [← hzip, ← h.report] at hreport
  rw [h.outcome_eq, h.describeMethod_eq]
  have hconverted : ∀ {o}, newCode settings policy recording c m = o → (∀ new, o ≠ .ok (some new)) →
      converted settings policy recording c m = m := by
    rintro o rfl ho
    unfold converted
    split
    · exact absurd ‹_› (ho _)
    · rfl
  cases hcode : newCode settings policy recording c m with
  | error cause =>
    rw [hcode] at hreport
    rw [Except.map_error]
    unfold note
    cases hkeep : settings.keepGoing with
    | true =>
      left
      exact ⟨hmethods, hsame (hconverted hcode (by simp)), hreport.symm, h.goes, by simp [hkeep]⟩
    | false => exact Or.inr ⟨rfl, cause, rfl, rfl, rfl, rfl⟩
  | ok code? =>
    left
    rw [hcode] at hreport
    cases code? with
    | none => exact ⟨hmethods, hsame (hconverted hcode (by simp)), hreport.symm, h.goes, hcodes ⟨_, hcode⟩⟩
    | some new => exact ⟨hmethods, h.replaceCode_eq hcode, hreport.symm, h.goes, hcodes ⟨_, hcode⟩⟩

/-- All methods that are left: each of them is converted and reported, or the conversion stops at one that fails. -/
theorem After.run (h : After settings policy recording c front rest v) :
    let u := (convertMethods settings policy recording (rest.zipIdx front.length) v).value
    After settings policy recording c c.methods [] u ∨
      settings.keepGoing = false ∧ ∃ front m rest cause v', After settings policy recording c front (m :: rest) v' ∧
        newCode settings policy recording c m = .error cause ∧ u.classFile = v'.classFile ∧
        u.stopped = some ⟨c.describeMethod front.length, cause⟩ := by
  -- on the methods that are left; those in front are accounted for by `After`
  induction rest generalizing front v with
  | nil =>
    have hall : c.methods = front := by rw [h.methods, List.append_nil]
    rw [hall]
    exact Or.inl h
  | cons m rest ih =>
    rw [List.zipIdx_cons, value_convertMethods_cons]
    dsimp only
    rcases h.step (convertMethod settings policy recording v.classFile front.length m).value.1 with
      hnext | ⟨hkeep, cause, hcause, hclass, -, hstopped⟩
    · rw [hnext.goes]
      have hrest := ih hnext
      rw [List.length_append, List.length_singleton] at hrest
      exact hrest
    · rw [hstopped]
      exact Or.inr ⟨hkeep, front, m, rest, cause, v, h, hcause, hclass, hstopped⟩

variable {checker? : Option TypeChecker}

theorem stopped_of_result {v : Conversion} {report : Report} (h : v.result = .ok report) :
    v.stopped = none ∧ v.report = report := by
  unfold result at h
  split at h
  · simp at h
  · rename_i hstopped
    exact ⟨hstopped, Except.ok.inj h⟩

/-- A conversion that ends has come past all methods. -/
theorem after_of_result {report : Report} (h : (c.convert settings checker? recording).value.result = .ok report) :
    After settings (settings.policy checker?) recording c c.methods [] (c.convert settings checker? recording).value := by
  rcases (After.start settings (settings.policy checker?) recording c).run with
    hafter | ⟨-, _, _, _, _, _, -, -, -, hfailed⟩
  · exact hafter
  · exact absurd ((stopped_of_result h).1.symm.trans hfailed) (by simp)

/-- The class that is left when the conversion has come past all methods. -/
theorem After.classFile_eq (h : After settings policy recording c c.methods [] v) :
    v.classFile = { c with methods := c.methods.map (converted settings policy recording c) } := by
  rw [h.classFile, List.append_nil]

/-- If no method fails, the conversion ends without failures. -/
theorem convert_goes
    (hcodes : ∀ m ∈ c.methods, ∃ code?, newCode settings (settings.policy checker?) recording c m = .ok code?) :
    ∃ report, (c.convert settings checker? recording).value.result = .ok report ∧ report.failures = [] := by
  rcases (After.start settings (settings.policy checker?) recording c).run with
    hafter | ⟨-, front, m, rest, cause, _, hafter, hcause, -⟩
  · have hstopped : (c.convert settings checker? recording).value.stopped = none := hafter.goes
    refine ⟨(c.convert settings checker? recording).value.report, ?_, ?_⟩
    · unfold result
      rw [hstopped]
    · rw [show (c.convert settings checker? recording).value.report = _ from hafter.report, reportOn,
        List.filterMap_eq_nil_iff]
      rintro ⟨m, index⟩ hm
      obtain ⟨code?, hcode⟩ := hcodes m (List.fst_mem_of_mem_zipIdx hm)
      simp [hcode]
  · obtain ⟨code?, hcode⟩ := hcodes m (by simp [hafter.methods])
    exact absurd (hcode.symm.trans hcause) (by simp)

/-! ## Without a type checker -/

theorem outcome_verifyMember (hpolicy : policy.checker? = none) (code : Code) :
    (policy.verifyMember recording c m code).value.outcome =
      match Method.ofMember c m code with
      | .error e => .error (.format e)
      | .ok method => (method.verify.map .inferred).mapError .verify := by
  unfold Policy.verifyMember
  cases Method.ofMember c m code with
  | error e => rfl
  | ok method =>
    have hchecker : policy.checkerFor c.version = none := by
      unfold Policy.checkerFor
      rw [hpolicy, ite_self]
    dsimp only
    rw [Traced.value_bind]
    unfold Policy.verify
    rw [hchecker]
    show ((Inference.verify recording method).value.map Verification.inferred).mapError Failure.verify = _
    rw [Inference.value_verify]

theorem newCode_of_verify (hpolicy : policy.checker? = none) {code : Code} {method : Method} {v : Verified}
    (hcode : m.code? c.constants = .ok (some code)) (hmethod : Method.ofMember c m code = .ok method)
    (hverify : method.verify = .ok v) : newCode settings policy recording c m =
      if wantsInlining settings c.constants code v then some <$> v.inline code c.constants else .ok none := by
  unfold newCode
  rw [hcode]
  dsimp only
  rw [outcome_verifyMember hpolicy, hmethod]
  dsimp only
  rw [hverify]
  rfl

/-- A method that does not fail has no code, or it is verified and inlined if that is wanted. -/
theorem newCode_cases (hpolicy : policy.checker? = none) {code? : Option Code}
    (h : newCode settings policy recording c m = .ok code?) :
    m.code? c.constants = .ok none ∧ code? = none ∨
      ∃ code method v, m.code? c.constants = .ok (some code) ∧ Method.ofMember c m code = .ok method ∧
        method.verify = .ok v ∧
        (wantsInlining settings c.constants code v = true ∧ (∃ new, v.inline code c.constants = .ok new ∧ code? = some new) ∨
          wantsInlining settings c.constants code v = false ∧ code? = none) := by
  cases hcode : m.code? c.constants with
  | error e => simp [newCode, hcode] at h
  | ok found =>
    cases found with
    | none =>
      simp only [newCode, hcode] at h
      exact Or.inl ⟨rfl, (Except.ok.inj h).symm⟩
    | some code =>
      cases hmethod : Method.ofMember c m code with
      | error e => simp [newCode, hcode, outcome_verifyMember hpolicy, hmethod] at h
      | ok method =>
        cases hverify : method.verify with
        | error e =>
          simp [newCode, hcode, outcome_verifyMember hpolicy, hmethod, hverify, Except.map, Except.mapError] at h
        | ok v =>
          rw [newCode_of_verify hpolicy hcode hmethod hverify] at h
          refine Or.inr ⟨code, method, v, rfl, hmethod, hverify, ?_⟩
          split at h
          · rename_i hwants
            obtain ⟨new, hnew, rfl⟩ := map_eq_ok.mp h
            exact Or.inl ⟨hwants, new, hnew, rfl⟩
          · rename_i hwants
            exact Or.inr ⟨by simpa using hwants, (Except.ok.inj h).symm⟩

theorem wantsInlining_default (pool : ConstantPool) (code : Code) (v : Verified) :
    wantsInlining {} pool code v = v.hasSubroutines := by
  simp [wantsInlining]

end Conversion

/-- New code is short, can be decoded if no copy at its end is named, and has no instruction of subroutines. -/
theorem Verified.inline_plain {v : Verified} {code new : Code} {pool : ConstantPool} (htiles : v.body.Tiles code.bytes)
    (h : v.inline code pool = .ok new) :
    ∃ l, v.layout = .ok l ∧ new.bytes.length ≤ Layout.maxCodeLength ∧
      ((∃ body, Body.decode new.bytes = .ok body) ↔ l.NamesInside) ∧
      ∀ body, Body.decode new.bytes = .ok body → ∀ i ∈ body.toList, i.isOfSubroutine = false := by
  obtain ⟨l, hlayout, hemit, -⟩ := Verified.inline_eq_ok h
  have hlays := Verified.lays_of_layout htiles hlayout
  have hemits := hlays.emits_of_emit hemit
  have hlength : new.bytes.length ≤ Layout.maxCodeLength := hemits.length_eq ▸ hlays.size_le
  refine ⟨l, hlayout, hlength, hlays.decode_iff hemits, ?_⟩
  intro body hdecode i hi
  have hbody := Body.decode_tiles hdecode (Nat.lt_of_le_of_lt hlength (by decide))
  obtain ⟨index, hindex⟩ := List.mem_iff_getElem?.mp hi
  rw [Body.getElem?_toList] at hindex
  obtain ⟨hjsr, hret⟩ := hlays.isPlain hemits hbody.toLaid hindex
  rw [← Bool.not_eq_true, Instruction.isOfSubroutine_iff]
  rintro (⟨entry, hcall⟩ | ⟨slot, hreturn⟩)
  · exact hjsr entry hcall
  · exact hret slot hreturn

theorem Method.code_of_ofMember {c : ClassFile} {m : Member} {code : Code} {method : Method}
    (h : Method.ofMember c m code = .ok method) : method.code = code := by
  unfold Method.ofMember at h
  obtain ⟨_, -, h⟩ := bind_eq_ok.mp h
  obtain ⟨_, -, h⟩ := bind_eq_ok.mp h
  obtain ⟨_, -, h⟩ := bind_eq_ok.mp h
  obtain ⟨_, -, h⟩ := bind_eq_ok.mp h
  obtain ⟨_, -, h⟩ := bind_eq_ok.mp h
  obtain ⟨_, -, h⟩ := bind_eq_ok.mp h
  obtain rfl := pure_eq_ok.mp h
  rfl

/-! ## Classes that are evaluated -/

/-- The code of a method and what is learned of it, if that takes at most so many rounds. -/
def Member.verifyWithin (m : Member) (c : ClassFile) (count : Nat) : Option (Code × Verified) :=
  (m.code? c.constants).toOption.join.bind fun code =>
    (Method.ofMember c m code).toOption.bind fun method => (method.verifyWithin count).map fun v => (code, v)

theorem Member.verify_of_within {m : Member} {c : ClassFile} {count : Nat} {code : Code} {v : Verified}
    (h : m.verifyWithin c count = some (code, v)) :
    ∃ method, m.code? c.constants = .ok (some code) ∧ Method.ofMember c m code = .ok method ∧ method.verify = .ok v := by
  obtain ⟨code', hcode, h⟩ := Option.bind_eq_some_iff.mp h
  obtain ⟨method, hmethod, h⟩ := Option.bind_eq_some_iff.mp h
  obtain ⟨v', hwithin, heq⟩ := Option.map_eq_some_iff.mp h
  obtain ⟨rfl, rfl⟩ := Prod.mk.inj heq
  have hcode := toOption_eq_some.mp (Option.join_eq_some_iff.mp hcode)
  exact ⟨method, hcode, toOption_eq_some.mp hmethod, Method.verify_of_within hwithin⟩

/-- What becomes of a method by default, once it is verified within so many rounds. -/
theorem Conversion.newCode_default {m : Member} {c : ClassFile} {count : Nat} {code : Code} {v : Verified}
    (h : m.verifyWithin c count = some (code, v)) (recording : Bool) :
    newCode {} (Settings.policy {} none) recording c m =
      if v.hasSubroutines then some <$> v.inline code c.constants else .ok none := by
  obtain ⟨method, hcode, hmethod, hverify⟩ := Member.verify_of_within h
  rw [newCode_of_verify rfl hcode hmethod hverify, wantsInlining_default]

/-- The bytes of a class with a method `f()V` for each body. -/
def ClassFile.bytesOfBodies (bodies : List Code) : List UInt8 :=
  ClassFile.toBytes
    { version := ⟨49, 0⟩
      constants := ⟨.ofList 1 [.utf8 "Test", .classInfo 1, .utf8 "f", .utf8 "()V", .utf8 "Code"]⟩
      accessFlags := 1
      thisClass := 2
      superClass := 0
      interfaces := []
      fields := []
      methods := bodies.map fun code => ⟨Member.staticFlag, 3, 4, [⟨5, write code⟩]⟩
      attributes := [] }

/-- A body with a call that is not reached:

    0 return;  1 jsr 0
-/
def Code.withDeadCall : Code := ⟨1, 0, [0xb1, 0xa8, 0xff, 0xff], [], []⟩

/-- A body with a subroutine:

    0 jsr 4;  3 return;  4 astore_0;  5 ret 0
-/
def Code.withCall : Code := ⟨1, 1, [0xa8, 0x00, 0x04, 0xb1, 0x4b, 0xa9, 0x00], [], []⟩

end Bytecode
