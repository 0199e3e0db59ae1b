import Bytecode.Inlining.Basic
import Bytecode.Verification.Inference

/-!
# Verification in so many rounds

Inference goes through the code instruction by instruction (`Session.interpret_some`), and through the worklist round by
round (`Session.run_cons`).  How many rounds it takes is not known beforehand.  Where a bound on them is given,
verification is structural recursion on it (`Method.verifyWithin`), and what it finds is what inference finds
(`Method.verify_of_within`).  In the same way a refusal is found in so many rounds (`Method.refusedWithin`).
-/

namespace Bytecode

namespace Session

variable {setup : Setup} {s t : Session} {origin index : Nat} {i : Instruction} {frame : Frame}

theorem interpret_none (hnone : setup.body.get? index = none) :
    interpret setup origin index frame s = s.reject (.located origin .fallsOffEnd) := by
  unfold interpret
  split
  · rfl
  · rename_i hi
    rw [hnone] at hi
    simp at hi

theorem interpret_some (hi : setup.body.get? index = some i) :
    interpret setup origin index frame s =
      if i.position ≠ origin && s.isMerged setup i.position then s.mergeInto setup i.position frame
      else
        match s.interpretOne setup i frame with
        | .error e => .error e
        | .ok (s, none) => .ok s
        | .ok (s, some frame) =>
          if setup.body.size ≤ index + 1 then s.reject (.located i.position .fallsOffEnd)
          else interpret setup origin (index + 1) frame s := by
  rw [interpret]
  split
  · rename_i hnone
    rw [hi] at hnone
    simp at hnone
  · rename_i j hj
    obtain rfl := Option.some.inj (hi.symm.trans hj)
    rfl

theorem run_nil (hidle : s.worklist = []) : s.run setup = .ok s := by
  unfold run
  split
  · rfl
  · rename_i hwork
    rw [hidle] at hwork
    simp at hwork

theorem run_cons {position : Nat} {rest : List Nat} (hwork : s.worklist = position :: rest) :
    s.run setup =
      match { s with worklist := rest }.round setup position with
      | .error e => .error e
      | .ok t => t.run setup := by
  rw [run]
  split
  · rename_i hidle
    rw [hwork] at hidle
    simp at hidle
  · rename_i position' rest' hwork'
    obtain ⟨rfl, rfl⟩ := List.cons.inj (hwork.symm.trans hwork')
    split
    · rename_i e hround
      rw [hround]
    · rename_i u hround
      rw [hround]

/-- The first rounds, at most so many. -/
def rounds (setup : Setup) : Nat → Session → Attempt Session
  | 0, s => .ok s
  | count + 1, s =>
    match s.worklist with
    | [] => .ok s
    | position :: rest =>
      match { s with worklist := rest }.round setup position with
      | .error e => .error e
      | .ok t => rounds setup count t

/-- Rounds that leave nothing to look at are all rounds. -/
theorem run_of_rounds {count : Nat} (h : rounds setup count s = .ok t) (hidle : t.worklist = []) :
    s.run setup = .ok t := by
  induction count generalizing s with
  | zero =>
    obtain rfl := Except.ok.inj h
    exact run_nil hidle
  | succ count ih =>
    unfold rounds at h
    split at h
    · rename_i hwork
      exact (run_nil hwork).trans h
    · rename_i position rest hwork
      rw [run_cons hwork]
      split at h
      · simp at h
      · exact ih h

/-- Rounds that end with a refusal are all rounds. -/
theorem run_of_refused {count : Nat} {e : Rejection} (h : rounds setup count s = .error e) : s.run setup = .error e := by
  induction count generalizing s with
  | zero => simp [rounds] at h
  | succ count ih =>
    unfold rounds at h
    split at h
    · simp at h
    · rename_i position rest hwork
      rw [run_cons hwork]
      split at h
      · exact h
      · exact ih h

end Session

namespace Method

/-- Verify a method, if that takes at most so many rounds. -/
def verifyWithin (method : Method) (count : Nat) : Option Verified :=
  match Inference.prepare false method with
  | .error _ => none
  | .ok (setup, entry) =>
    match (Session.start setup.body.codeLength setup.method.code.maxLocals.toNat).mergeInto setup 0 entry with
    | .error _ => none
    | .ok s =>
      match s.rounds setup count with
      | .error _ => none
      | .ok t => if t.worklist = [] then some (t.verified setup.body) else none

theorem verify_of_within {method : Method} {count : Nat} {v : Verified}
    (h : method.verifyWithin count = some v) : method.verify = .ok v := by
  unfold verifyWithin at h
  unfold verify Inference.verify Inference.analyse
  cases hprepare : Inference.prepare false method with
  | error e =>
    rw [hprepare] at h
    simp at h
  | ok found =>
    rw [hprepare] at h
    dsimp only at h ⊢
    split at h
    · simp at h
    · rename_i s hentry
      split at h
      · simp at h
      · rename_i t hrounds
        split at h
        · rename_i hidle
          obtain rfl := Option.some.inj h
          simp only [hentry, bind, Except.bind, Session.run_of_rounds hrounds hidle]
        · simp at h

/-- Why a method is refused, if that takes at most so many rounds. -/
def refusedWithin (method : Method) (count : Nat) : Option VerifyError :=
  match Inference.prepare false method with
  | .error e => some e
  | .ok (setup, entry) =>
    match (Session.start setup.body.codeLength setup.method.code.maxLocals.toNat).mergeInto setup 0 entry with
    | .error rejection => some rejection.error
    | .ok s =>
      match s.rounds setup count with
      | .error rejection => some rejection.error
      | .ok _ => none

theorem verify_of_refused {method : Method} {count : Nat} {e : VerifyError} (h : method.refusedWithin count = some e) :
    method.verify = .error e := by
  unfold refusedWithin at h
  unfold verify Inference.verify Inference.analyse
  cases hprepare : Inference.prepare false method with
  | error e' =>
    rw [hprepare] at h
    rw [Option.some.inj h]
  | ok found =>
    rw [hprepare] at h
    dsimp only at h ⊢
    split at h
    · rename_i rejection hentry
      obtain rfl := Option.some.inj h
      simp only [hentry, bind, Except.bind]
    · rename_i s hentry
      split at h
      · rename_i rejection hrounds
        obtain rfl := Option.some.inj h
        simp only [hentry, bind, Except.bind, Session.run_of_refused hrounds]
      · simp at h

/-- A test that holds of what is found in so many rounds. -/
theorem exists_of_within {method : Method} {count : Nat} {test : Verified → Bool}
    (h : (method.verifyWithin count).any test = true) : ∃ v, method.verify = .ok v ∧ test v = true := by
  obtain ⟨v, hv, htest⟩ := (Option.any_eq_true _ _).mp h
  exact ⟨v, verify_of_within hv, htest⟩

/-- A test that holds of what is found in so many rounds, and of the layout of the copies. -/
theorem exists_layout_of_within {method : Method} {count : Nat} {test : Verified → Layout → Bool}
    (h : (method.verifyWithin count).any (fun v => v.layout.toOption.any (test v)) = true) :
    ∃ v l, method.verify = .ok v ∧ v.layout = .ok l ∧ test v l = true := by
  obtain ⟨v, hverify, h⟩ := exists_of_within h
  obtain ⟨l, hl, htest⟩ := (Option.any_eq_true _ _).mp h
  refine ⟨v, l, hverify, ?_, htest⟩
  cases hlayout : v.layout with
  | error e => simp [hlayout, Except.toOption] at hl
  | ok l' =>
    rw [hlayout] at hl
    exact congrArg Except.ok (Option.some.inj hl)

/-- A static method without constants and handlers. -/
def bare (descriptor : MethodDescriptor) (maxStack maxLocals : UInt16) (bytes : List UInt8) : Method where
  className := .object
  name := ⟨"run", by decide⟩
  descriptor
  isStatic := true
  code := ⟨maxStack, maxLocals, bytes, [], []⟩
  constants := ConstantPool.empty.resolver

/-- A method with another exception table. -/
def guarded (method : Method) (table : List ExceptionHandler) : Method :=
  { method with code := { method.code with exceptionTable := table } }

end Method

end Bytecode
