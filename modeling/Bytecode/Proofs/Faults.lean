import Bytecode.Proofs.ExactTiling
import Bytecode.Proofs.Fixpoint

/-!
# Faults of computations

A fault tells either what is wrong with a method, or that verification lost its way: that it came to a place without an
instruction, or to a call without a place behind it.  No operation has a fault of the second kind, whatever frame it runs
in, and before the first round only positions that the method itself names can be wrong.

* `FailsIn P x`: if `x` fails, then with an error that has the property `P`;
* `VerifyFault.isInternal`: the faults of verification itself;
* `Op.run_failsIn`: operations have none of them;
* `Inference.prepare_failsIn`: what is done before the first round never misses the place behind a call.
-/

namespace Bytecode

/-! ## Errors with a property -/

section Outcomes

variable {σ ε δ α β : Type} {P : ε → Prop}

/-- If the computation fails, then with an error that has the property. -/
def FailsIn (P : ε → Prop) (x : Except ε α) : Prop := ∀ e, x = .error e → P e

@[simp] theorem failsIn_ok (a : α) : FailsIn P (.ok a : Except ε α) := by
  intro e he
  cases he

@[simp] theorem failsIn_pure (a : α) : FailsIn P (pure a : Except ε α) := failsIn_ok a

@[simp] theorem failsIn_error {e : ε} : FailsIn P (.error e : Except ε α) ↔ P e := by
  constructor
  · intro h
    exact h e rfl
  · intro he e' heq
    exact Except.error.inj heq ▸ he

@[simp] theorem failsIn_throw {e : ε} : FailsIn P (throw e : Except ε α) ↔ P e := failsIn_error

@[simp] theorem failsIn_bind {x : Except ε α} {f : α → Except ε β} :
    FailsIn P (x >>= f) ↔ FailsIn P x ∧ ∀ a, x = .ok a → FailsIn P (f a) := by
  simp only [FailsIn, bind_eq_error]
  constructor
  · intro h
    exact ⟨fun e he => h e (Or.inl he), fun a ha e he => h e (Or.inr ⟨a, ha, he⟩)⟩
  · rintro ⟨hx, hf⟩ e (he | ⟨a, ha, he⟩)
    · exact hx e he
    · exact hf a ha e he

@[simp] theorem failsIn_map {x : Except ε α} {f : α → β} : FailsIn P (f <$> x) ↔ FailsIn P x := by
  simp only [FailsIn, map_eq_error]

@[simp] theorem failsIn_mapError {x : Except δ α} {f : δ → ε} :
    FailsIn P (x.mapError f) ↔ FailsIn (fun e => P (f e)) x := by
  simp [FailsIn, mapError_eq_error]

@[simp] theorem failsIn_true (x : Except ε α) : FailsIn (fun _ => True) x := fun _ _ => trivial

@[simp] theorem failsIn_ite {c : Prop} [Decidable c] {x y : Except ε α} :
    FailsIn P (if c then x else y) ↔ (c → FailsIn P x) ∧ (¬ c → FailsIn P y) := by
  split <;> simp_all

theorem FailsIn.mono {Q : ε → Prop} {x : Except ε α} (h : FailsIn P x) (hPQ : ∀ e, P e → Q e) : FailsIn Q x :=
  fun e he => hPQ e (h e he)

theorem failsIn_mapM {f : α → Except ε β} {as : List α} (h : ∀ a ∈ as, FailsIn P (f a)) : FailsIn P (as.mapM f) := by
  intro e he
  obtain ⟨a, ha, hfailed⟩ := exists_of_mapM_error he
  exact h a ha e hfailed

/-- A chain of steps fails at a step, and what all steps keep still holds there. -/
theorem failsIn_foldlM {f : σ → α → Except ε σ} {I : σ → Prop} {as : List α}
    (hfails : ∀ s, ∀ a ∈ as, I s → FailsIn P (f s a)) (hkeeps : ∀ s, ∀ a ∈ as, I s → ∀ t, f s a = .ok t → I t) {s : σ}
    (hs : I s) : FailsIn P (as.foldlM f s) := by
  induction as generalizing s with
  | nil => exact failsIn_ok s
  | cons a as ih =>
    rw [List.foldlM_cons]
    refine failsIn_bind.mpr ⟨hfails s a List.mem_cons_self hs, ?_⟩
    intro t ht
    refine ih ?_ ?_ (hkeeps s a List.mem_cons_self hs t ht)
    · intro u b hb
      exact hfails u b (List.mem_cons_of_mem a hb)
    · intro u b hb
      exact hkeeps u b (List.mem_cons_of_mem a hb)

/-! Computations over a state. -/

@[simp] theorem failsIn_state_pure (a : α) (s : σ) : FailsIn P ((pure a : StateT σ (Except ε) α) s) := failsIn_ok (a, s)

@[simp] theorem failsIn_state_bind {x : StateT σ (Except ε) α} {f : α → StateT σ (Except ε) β} {s : σ} :
    FailsIn P ((x >>= f) s) ↔ FailsIn P (x s) ∧ ∀ a t, x s = .ok (a, t) → FailsIn P (f a t) := by
  change FailsIn P (x s >>= fun p => f p.1 p.2) ↔ _
  rw [failsIn_bind]
  simp only [Prod.forall]

@[simp] theorem failsIn_state_map {x : StateT σ (Except ε) α} {f : α → β} {s : σ} :
    FailsIn P ((f <$> x) s) ↔ FailsIn P (x s) := by
  change FailsIn P (x s >>= fun p => .ok (f p.1, p.2)) ↔ _
  simp

@[simp] theorem failsIn_state_throw {e : ε} {s : σ} : FailsIn P ((throw e : StateT σ (Except ε) α) s) ↔ P e := failsIn_error

@[simp] theorem failsIn_state_lift {x : Except ε α} {s : σ} :
    FailsIn P ((liftM x : StateT σ (Except ε) α) s) ↔ FailsIn P x := by
  change FailsIn P (x >>= fun a => .ok (a, s)) ↔ _
  simp

@[simp] theorem failsIn_state_get (s : σ) : FailsIn P ((get : StateT σ (Except ε) σ) s) := failsIn_ok (s, s)

@[simp] theorem failsIn_state_set (s t : σ) : FailsIn P ((set t : StateT σ (Except ε) PUnit) s) := failsIn_ok (PUnit.unit, t)

@[simp] theorem failsIn_state_modify (f : σ → σ) (s : σ) : FailsIn P ((modify f : StateT σ (Except ε) PUnit) s) :=
  failsIn_ok (PUnit.unit, f s)

@[simp] theorem failsIn_state_ite {c : Prop} [Decidable c] {x y : StateT σ (Except ε) α} {s : σ} :
    FailsIn P ((if c then x else y) s) ↔ (c → FailsIn P (x s)) ∧ (¬ c → FailsIn P (y s)) := by
  split <;> simp_all

@[simp] theorem failsIn_state_forM {x : α → StateT σ (Except ε) PUnit} (hx : ∀ a s, FailsIn P (x a s)) (as : List α)
    (s : σ) : FailsIn P ((forM as x : StateT σ (Except ε) PUnit) s) := by
  induction as generalizing s with
  | nil => exact failsIn_ok (PUnit.unit, s)
  | cons a as ih =>
    rw [List.forM_cons]
    refine failsIn_state_bind.mpr ⟨hx a s, ?_⟩
    intro _ t _
    exact ih t

end Outcomes

/-! ## Faults of operations -/

namespace VerifyFault

/-- Faults of verification itself: there is no instruction where one has to be, or no place behind a call. -/
@[simp] def isInternal : VerifyFault → Bool
  | .invalidTarget _ | .missingContinuation => true
  | _ => false

/-- A fault tells what is wrong with the method. -/
@[simp] def IsOrdinary (fault : VerifyFault) : Prop := fault.isInternal = false

/-- A fault can be told before any subroutine returns. -/
@[simp] def IsEarly (fault : VerifyFault) : Prop := fault ≠ .missingContinuation

theorem IsOrdinary.isEarly {fault : VerifyFault} (h : fault.IsOrdinary) : fault.IsEarly := by
  rintro rfl
  simp at h

end VerifyFault

open VerifyFault

namespace Resolver

/-- What is wrong with a constant is told as such. -/
structure IsOrdinary (constants : Resolver) : Prop where
  loadable : ∀ index, FailsIn VerifyFault.IsOrdinary (constants.loadable index)
  classType : ∀ index, FailsIn VerifyFault.IsOrdinary (constants.classType index)
  field : ∀ index, FailsIn VerifyFault.IsOrdinary (constants.field index)
  method : ∀ index, FailsIn VerifyFault.IsOrdinary (constants.method index)
  callSite : ∀ index, FailsIn VerifyFault.IsOrdinary (constants.callSite index)

@[simp] theorem known_failsIn {α : Type} (x : Except FormatError α) : FailsIn VerifyFault.IsOrdinary (known x) := by
  simp [known]

@[simp] theorem described_failsIn {α : Type} (read : String → Except DescriptorError α) (text : String) :
    FailsIn VerifyFault.IsOrdinary (described read text) := by
  simp [described]

@[simp] theorem named_failsIn (text : String) : FailsIn VerifyFault.IsOrdinary (named text) := by
  simp [named]

end Resolver

theorem ConstantPool.isOrdinary_resolver (pool : ConstantPool) : pool.resolver.IsOrdinary where
  loadable index := by
    simp only [resolver, loadable]
    split <;> simp
  classType index := by simp [resolver, classType]
  field index := by simp [resolver, fieldType]
  method index := by simp [resolver, resolvedMethod]
  callSite index := by
    simp only [resolver, callSite]
    split <;> simp

namespace Exec

variable (f : Frame)

@[simp] theorem incompatible_failsIn {α : Type} (expected : Expectation) (found : VType) :
    FailsIn IsOrdinary ((incompatible expected found : Exec α) f) := by
  simp [incompatible]

@[simp] theorem push_failsIn (t : VType) : FailsIn IsOrdinary (push t f) := by
  simp [push]

@[simp] theorem pushAll_failsIn (ts : List VType) : FailsIn IsOrdinary (pushAll ts f) := by
  simp [pushAll]

@[simp] theorem pop_failsIn : FailsIn IsOrdinary (pop f) := by
  unfold pop
  refine failsIn_state_bind.mpr ⟨failsIn_state_get f, ?_⟩
  intro g _ _
  cases g.stack <;> simp

@[simp] theorem popWord_failsIn : FailsIn IsOrdinary (popWord f) := by
  simp [popWord]

@[simp] theorem popExactly_failsIn (expected : VType) : FailsIn IsOrdinary (popExactly expected f) := by
  simp [popExactly]

@[simp] theorem popReference_failsIn : FailsIn IsOrdinary (popReference f) := by
  simp [popReference]

@[simp] theorem popInitialized_failsIn (expected : Expectation) : FailsIn IsOrdinary (popInitialized expected f) := by
  simp [popInitialized]

@[simp] theorem popAssignable_failsIn (expected : VType) : FailsIn IsOrdinary (popAssignable expected f) := by
  simp [popAssignable]

@[simp] theorem popArguments_failsIn (parameters : List FieldType) : FailsIn IsOrdinary (popArguments parameters f) := by
  simp [popArguments]

@[simp] theorem pushResult_failsIn (returnType : Option FieldType) : FailsIn IsOrdinary (pushResult returnType f) := by
  cases returnType <;> simp [pushResult]

@[simp] theorem getLocal_failsIn (index : UInt16) : FailsIn IsOrdinary (getLocal index f) := by
  unfold getLocal
  refine failsIn_state_bind.mpr ⟨failsIn_state_get f, ?_⟩
  intro g _ _
  cases g.locals[index.toNat]? <;> simp

@[simp] theorem checkLocal_failsIn (index : UInt16) (expected : VType) : FailsIn IsOrdinary (checkLocal index expected f) := by
  simp [checkLocal]

@[simp] theorem setLocal_failsIn (index : UInt16) (t : VType) : FailsIn IsOrdinary (setLocal index t f) := by
  simp [setLocal]

@[simp] theorem arrayElementType_failsIn (array : VType) (element : ArrayElement) :
    FailsIn IsOrdinary (arrayElementType array element) := by
  unfold arrayElementType
  split
  · simp
  · split <;> simp
  · simp

@[simp] theorem shuffle_failsIn (how : Shuffle) : FailsIn IsOrdinary (shuffle how f) := by
  cases how <;> simp [shuffle]

@[simp] theorem construct_failsIn (thisClass : BinaryName) : FailsIn IsOrdinary (construct thisClass f) := by
  unfold construct
  refine failsIn_state_bind.mpr ⟨pop_failsIn f, ?_⟩
  intro t g _
  split <;> simp [replaceAll]

variable {context : ExecutionContext}

theorem invoke_failsIn (hconstants : context.constants.IsOrdinary) (kind : InvokeKind) (index : UInt16) :
    FailsIn IsOrdinary (invoke context kind index f) := by
  simp [invoke, hconstants.method]

theorem returnValue_failsIn (type : LocalType) : FailsIn IsOrdinary (returnValue context type f) := by
  unfold returnValue
  cases context.returnType <;> simp

end Exec

/-- Operations tell what is wrong with their operands, with locals and with constants, and nothing else. -/
theorem Op.run_failsIn {context : ExecutionContext} (hconstants : context.constants.IsOrdinary) (op : Op) (f : Frame) :
    FailsIn IsOrdinary (op.run context f) := by
  cases op with
  | ldc index => simp [run, hconstants.loadable]
  | ldc2 index => simp [run, hconstants.loadable]
  | load type index => cases type <;> simp [run]
  | store type index =>
    cases type with
    | numeric type => simp [run]
    | reference =>
      refine failsIn_state_bind.mpr ⟨Exec.pop_failsIn f, ?_⟩
      intro t g _
      dsimp only
      split
      · refine failsIn_state_bind.mpr ⟨failsIn_state_get g, ?_⟩
        intro h _ _
        rcases h.locals[index.toNat]? with _ | (_ | _ | _ | _ | _ | _ | _ | _ | _ | _) <;> simp
      · simp
  | leave type =>
    cases type with
    | none => simp [run]
    | some type => exact Exec.returnValue_failsIn f type
  | getStatic index => simp [run, hconstants.field]
  | putStatic index => simp [run, hconstants.field]
  | getField index => simp [run, hconstants.field]
  | putField index => simp [run, hconstants.field]
  | invoke kind index => exact Exec.invoke_failsIn f hconstants kind index
  | invokeDynamic index => simp [run, hconstants.callSite]
  | newObject index =>
    refine failsIn_state_bind.mpr ⟨failsIn_state_lift.mpr (hconstants.classType index), ?_⟩
    intro type g _
    split <;> simp
  | newRefArray index => simp [run, hconstants.classType]
  | newMultiArray index dimensions => simp [run, hconstants.classType]
  | arrayLength =>
    refine failsIn_state_bind.mpr ⟨Exec.pop_failsIn f, ?_⟩
    intro t g _
    split <;> simp
  | checkCast index => simp [run, hconstants.classType]
  | instanceOf index => simp [run, hconstants.classType]
  | _ => simp [run]

namespace Frame

theorem checkHeight_failsIn (maxStack : Nat) (f : Frame) : FailsIn IsOrdinary (f.checkHeight maxStack) := by
  simp [checkHeight]

theorem execute_failsIn {context : ExecutionContext} (hconstants : context.constants.IsOrdinary) (op : Op) (f : Frame)
    (registry : Registry) : FailsIn IsOrdinary (f.execute op context registry).2 := by
  unfold execute
  split
  · rename_i fault hrun
    exact failsIn_error.mpr (Op.run_failsIn hconstants op f fault hrun)
  · exact checkHeight_failsIn _ _

theorem executeBranch_failsIn (f : Frame) (kind : BranchKind) : FailsIn IsOrdinary (f.executeBranch kind) := by
  cases kind <;> simp [executeBranch, StateT.run]

theorem executeSelect_failsIn (f : Frame) : FailsIn IsOrdinary f.executeSelect := by
  simp [executeSelect, StateT.run]

theorem joinStacks_failsIn (ts us : List VType) : FailsIn IsOrdinary (joinStacks ts us) := by
  fun_induction joinStacks ts us with
  | case1 t ts u us ih => simp [ih]
  | case2 => simp

theorem merge_failsIn (f incoming : Frame) : FailsIn IsOrdinary (f.merge incoming) := by
  unfold merge
  split
  · simp
  · split
    · rename_i fault hjoin
      exact failsIn_error.mpr (joinStacks_failsIn _ _ fault hjoin)
    · simp

end Frame

theorem TypeState.merge_failsIn (st : TypeState) (incoming : Frame) : FailsIn IsOrdinary (st.merge incoming) := by
  unfold merge
  split
  · rename_i fault hmerge
    exact failsIn_error.mpr (Frame.merge_failsIn _ _ fault hmerge)
  · simp

theorem Nesting.leaveThrough_failsIn (n : Nesting) (entry : Nat) : FailsIn IsOrdinary (n.leaveThrough entry) := by
  unfold leaveThrough
  split
  · simp
  · split <;> simp

theorem Session.subroutineEntry_failsIn (setup : Setup) (entry : Nat) (frame : Frame) (registry : Registry) :
    FailsIn IsOrdinary (subroutineEntry setup entry frame registry) := by
  simp [subroutineEntry, Frame.push, Frame.checkHeight_failsIn, Nesting.enter]

/-! ## Faults before the first round -/

namespace Instruction

variable (length position : Nat) (input : List UInt8)

@[simp] theorem operand_failsIn (count : Nat) : FailsIn IsEarly (operand count input) := by
  simp [operand]

@[simp] theorem byteOperand_failsIn : FailsIn IsEarly (byteOperand input) := by
  simp [byteOperand]

@[simp] theorem shortIndex_failsIn : FailsIn IsEarly (shortIndex input) := by
  simp [shortIndex]

@[simp] theorem longIndex_failsIn : FailsIn IsEarly (longIndex input) := by
  simp [longIndex]

@[simp] theorem int32Operand_failsIn : FailsIn IsEarly (int32Operand input) := by
  simp [int32Operand]

@[simp] theorem shortDistance_failsIn : FailsIn IsEarly (shortDistance input) := by
  simp [shortDistance]

@[simp] theorem longDistance_failsIn : FailsIn IsEarly (longDistance input) := by
  simp [longDistance]

@[simp] theorem targetAt_failsIn (distance : Int) : FailsIn IsEarly (targetAt length position distance) := by
  simp [targetAt]

@[simp] theorem needBytes_failsIn (count : Nat) : FailsIn IsEarly (needBytes count input) := by
  simp [needBytes]

@[simp] theorem plain_failsIn (opcode : UInt8) : FailsIn IsEarly (plain opcode input) := by
  unfold plain
  simp only [failsIn_state_ite, failsIn_state_bind, failsIn_state_pure, failsIn_state_throw, byteOperand_failsIn,
    shortIndex_failsIn, longIndex_failsIn, IsEarly, ne_eq, reduceCtorEq, not_false_eq_true, implies_true, true_and, and_true]
  -- what is left is a number that names no type of elements
  intros
  rename_i code rest _
  cases newArrayType? code.toNat <;> simp

@[simp] theorem widened_failsIn : FailsIn IsEarly (widened input) := by
  simp [widened]

@[simp] theorem tableTargets_failsIn (count : Nat) (front : List Nat) :
    FailsIn IsEarly (tableTargets length position count front input) := by
  induction count generalizing front input with
  | zero => simp [tableTargets]
  | succ count ih => simp [tableTargets, ih]

@[simp] theorem lookupPairs_failsIn (count : Nat) (front : List (Int32 × Nat)) :
    FailsIn IsEarly (lookupPairs length position count front input) := by
  induction count generalizing front input with
  | zero => simp [lookupPairs]
  | succ count ih => cases front <;> simp [lookupPairs, ih]

@[simp] theorem switchOperands_failsIn (opcode : UInt8) :
    FailsIn IsEarly (switchOperands length position opcode input) := by
  simp [switchOperands]

@[simp] theorem fixedFlow_failsIn (opcode : UInt8) : FailsIn IsEarly (fixedFlow length position opcode input) := by
  simp [fixedFlow]

theorem decodeFrom_failsIn : FailsIn IsEarly (decodeFrom length position input) := by
  cases input with
  | nil => simp [decodeFrom]
  | cons opcode operands =>
    cases hlength : Opcode.fixedLength? opcode <;> simp [decodeFrom, hlength, StateT.run]

end Instruction

namespace VerifyError

/-- An error can be told before any subroutine returns. -/
def IsEarly (error : VerifyError) : Prop := error.fault.IsEarly

@[simp] theorem isEarly_located {position : Nat} {fault : VerifyFault} :
    (located position fault).IsEarly ↔ fault.IsEarly := Iff.rfl

@[simp] theorem isEarly_nowhere {fault : VerifyFault} : (nowhere fault).IsEarly ↔ fault.IsEarly := Iff.rfl

end VerifyError

theorem atPosition_failsIn {α : Type} {x : Except VerifyFault α} (h : FailsIn IsEarly x) (position : Nat) :
    FailsIn VerifyError.IsEarly (atPosition position x) :=
  failsIn_mapError.mpr h

theorem Body.decode_failsIn {code : List UInt8} (hfits : code.length < 2 ^ 64) :
    FailsIn VerifyError.IsEarly (Body.decode code) := by
  intro error herror
  obtain ⟨position, fault, rfl, -, -, hdecode | ⟨i, t, -, -, -, rfl⟩⟩ := blames_of_decode hfits herror
  · exact atPosition_failsIn (Instruction.decodeFrom_failsIn _ _ _) position _ hdecode
  · simp

theorem Frame.placeFrom_failsIn (next : Nat) (locals types : List VType) :
    FailsIn IsEarly (placeFrom next locals types) := by
  induction types generalizing next locals with
  | nil => simp [placeFrom]
  | cons t rest ih => simp [placeFrom, ih]

namespace Inference

theorem resolveHandler_failsIn {method : Method} (hconstants : method.constants.IsOrdinary) (body : Body)
    (h : ExceptionHandler) : FailsIn VerifyError.IsEarly (resolveHandler method body h) := by
  have hcheck : ∀ position allowEnd, FailsIn VerifyError.IsEarly (body.checkPosition position allowEnd) := by
    simp [Body.checkPosition]
  have hclass := (hconstants.classType h.catchType).mono fun _ => IsOrdinary.isEarly
  simp only [resolveHandler, failsIn_bind, hcheck, true_and]
  intro _ _ _ _ _ _
  split
  · simp
  · split
    · simp
    · refine failsIn_bind.mpr ⟨atPosition_failsIn hclass _, ?_⟩
      intro type _
      cases type <;> simp

/-- What is done before the first round never misses the place behind a call. -/
theorem prepare_failsIn {method : Method} (hfits : method.code.bytes.length < 2 ^ 64)
    (hconstants : method.constants.IsOrdinary) (recording : Bool) :
    FailsIn VerifyError.IsEarly (prepare recording method) := by
  have hhandlers : ∀ body, FailsIn VerifyError.IsEarly
      (method.code.exceptionTable.mapM (resolveHandler method body)) := by
    intro body
    exact failsIn_mapM fun handler _ => resolveHandler_failsIn hconstants body handler
  simp [prepare, Body.decode_failsIn hfits, hhandlers, Frame.entry, atPosition_failsIn, Frame.placeFrom_failsIn]

end Inference

end Bytecode
