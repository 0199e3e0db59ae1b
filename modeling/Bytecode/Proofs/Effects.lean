import Bytecode.Proofs.Outcomes
import Bytecode.Verification.Execution

/-!
# What operations do to frames

However many operations there are, they change a frame in few ways: they replace the stack, write a local, or
initialize an object everywhere.  A relation between frames that is kept by these is kept by every operation.

* `Exec.Effect`: relations kept by the elementary changes;
* `Exec.Effect.run`: such a relation holds between the frames before and after an operation.
-/

namespace Bytecode

variable {f g : Frame} {locals : List VType} {t : VType}

namespace Exec

/-! ## Elementary changes -/

theorem pop_eq_ok : pop f = .ok (t, g) ↔ f.stack = t :: g.stack ∧ g = { f with stack := g.stack } := by
  obtain ⟨locals, stack, nesting⟩ := f
  cases stack with
  | nil =>
    change Except.error VerifyFault.emptyStack = .ok (t, g) ↔ _
    simp
  | cons t' stack =>
    change Except.ok (t', (⟨locals, stack, nesting⟩ : Frame)) = .ok (t, g) ↔ _
    constructor
    · intro h
      obtain ⟨rfl, rfl⟩ := Prod.mk.inj (Except.ok.inj h)
      exact ⟨rfl, rfl⟩
    · rintro ⟨hstack, hg⟩
      obtain ⟨rfl, rfl⟩ := List.cons.inj hstack
      rw [hg]

theorem pop_bind_eq_ok {α : Type} {r : α × Frame} {k : VType → Exec α} :
    (pop >>= k) f = .ok r ↔ ∃ t rest, f.stack = t :: rest ∧ k t { f with stack := rest } = .ok r := by
  rw [state_bind_eq_ok]
  constructor
  · rintro ⟨t, f', h, hk⟩
    obtain ⟨hstack, hf'⟩ := pop_eq_ok.mp h
    rw [hf'] at hk
    exact ⟨t, f'.stack, hstack, hk⟩
  · rintro ⟨t, rest, hstack, hk⟩
    exact ⟨t, { f with stack := rest }, pop_eq_ok.mpr ⟨hstack, rfl⟩, hk⟩

theorem push_eq_ok {u : Unit} : push t f = .ok (u, g) ↔ g = { f with stack := t :: f.stack } := by
  change Except.ok ((), ({ f with stack := t :: f.stack } : Frame)) = .ok (u, g) ↔ _
  constructor
  · intro h
    exact (Prod.mk.inj (Except.ok.inj h)).2.symm
  · rintro rfl
    rfl

theorem getLocal_eq_ok {index : UInt16} : getLocal index f = .ok (t, g) ↔ f.locals[index.toNat]? = some t ∧ g = f := by
  unfold getLocal
  rw [state_bind_eq_ok]
  cases hlocal : f.locals[index.toNat]? with
  | none =>
    constructor
    · rintro ⟨f', g', hget, h⟩
      obtain ⟨rfl, rfl⟩ := Prod.mk.inj (Except.ok.inj hget)
      rw [hlocal] at h
      simp at h
    · rintro ⟨hnone, -⟩
      simp at hnone
  | some t' =>
    constructor
    · rintro ⟨f', g', hget, h⟩
      obtain ⟨rfl, rfl⟩ := Prod.mk.inj (Except.ok.inj hget)
      rw [hlocal] at h
      obtain ⟨rfl, rfl⟩ := Prod.mk.inj (state_pure_eq_ok.mp h)
      exact ⟨rfl, rfl⟩
    · rintro ⟨hsome, rfl⟩
      refine ⟨g, g, rfl, ?_⟩
      rw [hlocal, hsome]
      exact state_pure_eq_ok.mpr rfl

theorem setLocal_eq_ok {index : UInt16} {u : Unit} :
    setLocal index t f = .ok (u, g) ↔ index.toNat + width t ≤ f.locals.length ∧
      g = { f with locals := assigned f.locals index.toNat t } := by
  unfold setLocal
  rw [state_bind_eq_ok]
  by_cases hshort : f.locals.length < index.toNat + width t
  · constructor
    · rintro ⟨f', g', hget, h⟩
      obtain ⟨rfl, rfl⟩ := Prod.mk.inj (Except.ok.inj hget)
      rw [if_pos hshort] at h
      obtain ⟨_, _, hthrow, -⟩ := state_bind_eq_ok.mp h
      simp at hthrow
    · rintro ⟨hfits, -⟩
      omega
  · constructor
    · rintro ⟨f', g', hget, h⟩
      obtain ⟨rfl, rfl⟩ := Prod.mk.inj (Except.ok.inj hget)
      rw [if_neg hshort] at h
      exact ⟨by omega, (Prod.mk.inj (Except.ok.inj h)).2.symm⟩
    · rintro ⟨-, rfl⟩
      refine ⟨f, f, rfl, ?_⟩
      rw [if_neg hshort]
      rfl

/-! ## Relations kept by changes -/

/-- A relation between frames before and after changes that is kept by changes of the stack. -/
structure StackEffect (R : Frame → Frame → Prop) : Prop where
  refl : ∀ f, R f f
  trans : ∀ {f g h}, R f g → R g h → R f h
  stack : ∀ (f : Frame) (stack : List VType), R f { f with stack }

/-- A relation that is also kept by elementary changes of the locals. -/
structure Effect (R : Frame → Frame → Prop) : Prop extends StackEffect R where
  assign : ∀ (f : Frame) (index : Nat) (t : VType), index + width t ≤ f.locals.length →
    R f { f with locals := assigned f.locals index t }
  replace : ∀ (f : Frame) (old : VType) (name : BinaryName), old.isUninitialized = true →
    R f { f with locals := f.locals.map fun t => if t = old then .ofClass name else t }

/-- A change of frames stays inside a relation. -/
def Within (R : Frame → Frame → Prop) {α : Type} (x : Exec α) : Prop :=
  ∀ (f : Frame) (a : α) (g : Frame), x f = .ok (a, g) → R f g

namespace StackEffect

variable {R : Frame → Frame → Prop} (hR : StackEffect R) {α β : Type}

include hR

theorem pure (a : α) : Within R (Pure.pure a : Exec α) := by
  intro f b g h
  obtain ⟨-, rfl⟩ := Prod.mk.inj (state_pure_eq_ok.mp h)
  exact hR.refl f

theorem bind {x : Exec α} {k : α → Exec β} (hx : Within R x) (hk : ∀ a, Within R (k a)) :
    Within R (x >>= k) := by
  intro f b h hrun
  obtain ⟨a, g, hfirst, hrest⟩ := state_bind_eq_ok.mp hrun
  exact hR.trans (hx f a g hfirst) (hk a g b h hrest)

omit hR in
theorem throw (fault : VerifyFault) : Within R (MonadExcept.throw fault : Exec α) := by
  intro f b g h
  exact absurd h (by simp)

omit hR in
theorem incompatible (expected : Expectation) (found : VType) : Within R (Exec.incompatible expected found : Exec α) :=
  throw _

theorem lift (x : Except VerifyFault α) : Within R (liftM x : Exec α) := by
  intro f b g h
  obtain ⟨a, -, heq⟩ := state_lift_eq_ok.mp h
  rw [(Prod.mk.inj heq).2]
  exact hR.refl f

omit hR in
theorem liftBind {x : Except VerifyFault α} {k : α → Exec β} (hk : ∀ a, x = .ok a → Within R (k a)) :
    Within R (liftM x >>= k) := by
  intro f b g h
  obtain ⟨a, f', hlift, hrest⟩ := state_bind_eq_ok.mp h
  obtain ⟨a', hx, heq⟩ := state_lift_eq_ok.mp hlift
  obtain ⟨rfl, rfl⟩ := Prod.mk.inj heq
  exact hk _ hx _ b g hrest

theorem get : Within R (MonadState.get : Exec Frame) := by
  intro f b g h
  obtain ⟨-, rfl⟩ := Prod.mk.inj (Except.ok.inj h)
  exact hR.refl f

theorem push (t : VType) : Within R (Exec.push t) := by
  intro f b g h
  obtain ⟨-, rfl⟩ := Prod.mk.inj (Except.ok.inj h)
  exact hR.stack f _

theorem pushAll (ts : List VType) : Within R (Exec.pushAll ts) := by
  intro f b g h
  obtain ⟨-, rfl⟩ := Prod.mk.inj (Except.ok.inj h)
  exact hR.stack f _

theorem pop : Within R Exec.pop := by
  intro f t g h
  rw [(pop_eq_ok.mp h).2]
  exact hR.stack f g.stack

theorem popWord : Within R Exec.popWord := by
  unfold Exec.popWord
  refine hR.bind hR.pop fun t => ?_
  split
  · exact hR.bind (throw _) fun _ => hR.pure _
  · exact hR.pure _

theorem popExactly (expected : VType) : Within R (Exec.popExactly expected) := by
  unfold Exec.popExactly
  refine hR.bind hR.pop fun t => ?_
  split
  · exact incompatible _ _
  · exact hR.pure _

theorem popReference : Within R Exec.popReference := by
  unfold Exec.popReference
  refine hR.bind hR.pop fun t => ?_
  split
  · exact incompatible _ _
  · exact hR.pure _

theorem popInitialized (expected : Expectation) : Within R (Exec.popInitialized expected) := by
  unfold Exec.popInitialized
  refine hR.bind hR.pop fun t => ?_
  split
  · exact incompatible _ _
  · exact hR.pure _

theorem popAssignable (expected : VType) : Within R (Exec.popAssignable expected) := by
  unfold Exec.popAssignable
  refine hR.bind hR.pop fun t => ?_
  split
  · exact incompatible _ _
  · exact hR.pure _

theorem forM {x : α → Exec PUnit} (hx : ∀ a, Within R (x a)) (as : List α) : Within R (as.forM x) := by
  induction as with
  | nil => exact hR.pure _
  | cons a as ih => exact hR.bind (hx a) fun _ => ih

theorem popArguments (parameters : List FieldType) : Within R (Exec.popArguments parameters) := by
  unfold Exec.popArguments
  refine hR.forM (fun parameter => hR.bind hR.pop fun found => ?_) _
  simp only
  split
  · exact throw _
  · exact hR.pure _

theorem pushResult (returnType : Option FieldType) : Within R (Exec.pushResult returnType) := by
  unfold Exec.pushResult
  split
  · exact hR.pure _
  · exact hR.push _

theorem getLocal (index : UInt16) : Within R (Exec.getLocal index) := by
  unfold Exec.getLocal
  refine hR.bind hR.get fun f => ?_
  split
  · exact hR.pure _
  · exact throw _

theorem checkLocal (index : UInt16) (expected : VType) : Within R (Exec.checkLocal index expected) := by
  unfold Exec.checkLocal
  refine hR.bind (hR.getLocal index) fun t => ?_
  split
  · exact incompatible _ _
  · exact hR.pure _

theorem shuffle (how : Shuffle) : Within R (Exec.shuffle how) := by
  unfold Exec.shuffle
  cases how with
  | pop => exact hR.bind hR.popWord fun _ => hR.pure _
  | pop2 =>
    refine hR.bind hR.pop fun a => ?_
    split
    · exact hR.bind hR.popWord fun _ => hR.pure _
    · exact hR.pure _
  | dup => exact hR.bind hR.popWord fun a => hR.pushAll _
  | dupX1 => exact hR.bind hR.popWord fun a => hR.bind hR.popWord fun b => hR.pushAll _
  | dupX2 =>
    refine hR.bind hR.popWord fun a => hR.bind hR.pop fun b => ?_
    split
    · exact hR.bind hR.popWord fun c => hR.pushAll _
    · exact hR.pushAll _
  | dup2 =>
    refine hR.bind hR.pop fun a => ?_
    split
    · exact hR.bind hR.popWord fun b => hR.pushAll _
    · exact hR.pushAll _
  | dup2X1 =>
    refine hR.bind hR.pop fun a => hR.bind hR.popWord fun b => ?_
    split
    · exact hR.bind hR.popWord fun c => hR.pushAll _
    · exact hR.pushAll _
  | dup2X2 =>
    refine hR.bind hR.pop fun a => ?_
    split
    · refine hR.bind hR.popWord fun b => hR.bind hR.pop fun c => ?_
      split
      · exact hR.bind hR.popWord fun d => hR.pushAll _
      · exact hR.pushAll _
    · refine hR.bind hR.pop fun b => ?_
      split
      · exact hR.bind hR.popWord fun c => hR.pushAll _
      · exact hR.pushAll _
  | swap => exact hR.bind hR.popWord fun a => hR.bind hR.popWord fun b => hR.pushAll _

theorem returnValue (context : ExecutionContext) (type : LocalType) :
    Within R (Exec.returnValue context type) := by
  unfold Exec.returnValue
  split
  · exact throw _
  · refine hR.bind hR.pop fun found => ?_
    split
    · exact throw _
    · exact hR.pure _

/-- Calls of methods that are no constructors change the stack only. -/
theorem invoke {context : ExecutionContext} {kind : InvokeKind} {index : UInt16}
    (hmethod : ∀ method, context.constants.method index = .ok method → method.name ≠ .init) :
    Within R (Exec.invoke context kind index) := by
  unfold Exec.invoke
  refine liftBind fun method hok => hR.bind (hR.popArguments _) fun _ => ?_
  rw [if_neg (hmethod method hok)]
  split
  · exact hR.bind (hR.popInitialized _) fun _ => hR.pushResult _
  · exact hR.pushResult _

/-- Operations other than stores and calls change the stack only. -/
theorem run {op : Op} (context : ExecutionContext) (hstore : ∀ type index, op ≠ .store type index)
    (hinvoke : ∀ kind index, op ≠ .invoke kind index) : Within R (op.run context) := by
  unfold Op.run
  cases op with
  | nop => exact hR.pure _
  | pushNull => exact hR.push _
  | const type => exact hR.push _
  | ldc index =>
    refine hR.bind (hR.lift _) fun t => ?_
    split
    · exact hR.bind (throw _) fun _ => hR.push _
    · exact hR.push _
  | ldc2 index =>
    refine hR.bind (hR.lift _) fun t => ?_
    split
    · exact hR.bind (throw _) fun _ => hR.push _
    · exact hR.push _
  | load type index =>
    cases type with
    | reference =>
      refine hR.bind (hR.getLocal _) fun t => ?_
      split
      · exact hR.bind (incompatible _ _) fun _ => hR.push _
      · exact hR.push _
    | numeric type => exact hR.bind (hR.checkLocal _ _) fun _ => hR.push _
  | store type index => exact absurd rfl (hstore type index)
  | arrayLoad element =>
    exact hR.bind (hR.popExactly _) fun _ => hR.bind hR.pop fun array => hR.bind (hR.lift _) fun t => hR.push _
  | arrayStore element =>
    refine hR.bind hR.pop fun value => hR.bind (hR.popExactly _) fun _ => hR.bind hR.pop fun array =>
      hR.bind (hR.lift _) fun t => ?_
    split
    · exact incompatible _ _
    · exact hR.pure _
  | shuffle how => exact hR.shuffle how
  | arithmetic type =>
    exact hR.bind (hR.popExactly _) fun _ => hR.bind (hR.popExactly _) fun _ => hR.push _
  | negate type => exact hR.bind (hR.popExactly _) fun _ => hR.push _
  | shift type =>
    exact hR.bind (hR.popExactly _) fun _ => hR.bind (hR.popExactly _) fun _ => hR.push _
  | increment index amount => exact hR.checkLocal _ _
  | convert source target => exact hR.bind (hR.popExactly _) fun _ => hR.push _
  | compare type =>
    exact hR.bind (hR.popExactly _) fun _ => hR.bind (hR.popExactly _) fun _ => hR.push _
  | leave type =>
    cases type with
    | none =>
      dsimp only
      split
      · exact throw _
      · exact hR.pure _
    | some type => exact hR.returnValue _ _
  | throwException =>
    refine hR.bind (hR.popInitialized _) fun _ => ?_
    intro f b g h
    obtain ⟨-, rfl⟩ := Prod.mk.inj (Except.ok.inj h)
    exact hR.stack f []
  | getStatic index => exact hR.bind (hR.lift _) fun t => hR.push _
  | putStatic index => exact hR.bind (hR.lift _) fun t => hR.popAssignable _
  | getField index =>
    exact hR.bind (hR.lift _) fun t => hR.bind (hR.popInitialized _) fun _ => hR.push _
  | putField index =>
    refine hR.bind (hR.lift _) fun t => hR.bind (hR.popAssignable _) fun _ => hR.bind hR.pop fun object => ?_
    split
    · exact incompatible _ _
    · exact hR.pure _
  | invoke kind index => exact absurd rfl (hinvoke kind index)
  | invokeDynamic index =>
    exact hR.bind (hR.lift _) fun descriptor => hR.bind (hR.popArguments _) fun _ => hR.pushResult _
  | newObject index =>
    refine hR.bind (hR.lift _) fun type => ?_
    split
    · exact hR.push _
    · exact throw _
  | newArray element => exact hR.bind (hR.popExactly _) fun _ => hR.push _
  | newRefArray index =>
    exact hR.bind (hR.lift _) fun type => hR.bind (hR.popExactly _) fun _ => hR.push _
  | newMultiArray index dimensions =>
    refine hR.bind (hR.lift _) fun array => ?_
    split
    · exact hR.bind (throw _) fun _ => hR.bind (hR.forM (fun _ => hR.popExactly _) _) fun _ => hR.push _
    · exact hR.bind (hR.forM (fun _ => hR.popExactly _) _) fun _ => hR.push _
  | arrayLength =>
    refine hR.bind hR.pop fun t => ?_
    split
    · exact hR.push _
    · exact hR.push _
    · exact incompatible _ _
  | checkCast index =>
    exact hR.bind (hR.lift _) fun type => hR.bind (hR.popInitialized _) fun _ => hR.push _
  | instanceOf index =>
    exact hR.bind (hR.lift _) fun type => hR.bind (hR.popInitialized _) fun _ => hR.push _
  | monitorEnter => exact hR.popInitialized _
  | monitorExit => exact hR.popInitialized _

end StackEffect

namespace Effect

variable {R : Frame → Frame → Prop} (hR : Effect R)

include hR

theorem setLocal (index : UInt16) (t : VType) : Within R (Exec.setLocal index t) := by
  intro f b g h
  obtain ⟨hfits, rfl⟩ := setLocal_eq_ok.mp h
  exact hR.assign f index.toNat t hfits

theorem replaceAll {old : VType} (hold : old.isUninitialized = true) (name : BinaryName) :
    Within R (Exec.replaceAll old (.ofClass name)) := by
  intro f b g h
  obtain ⟨-, rfl⟩ := Prod.mk.inj (Except.ok.inj h)
  exact hR.trans (hR.replace f old name hold) (hR.stack _ (f.stack.map fun t => if t = old then .ofClass name else t))

theorem construct (thisClass : BinaryName) : Within R (Exec.construct thisClass) := by
  unfold Exec.construct
  refine hR.bind hR.pop fun t => ?_
  split
  · exact hR.replaceAll rfl _
  · exact hR.replaceAll rfl _
  · exact StackEffect.incompatible _ _

theorem invoke (context : ExecutionContext) (kind : InvokeKind) (index : UInt16) :
    Within R (Exec.invoke context kind index) := by
  unfold Exec.invoke
  refine hR.bind (hR.lift _) fun method => hR.bind (hR.popArguments _) fun _ => ?_
  split
  · split
    · exact hR.bind (StackEffect.throw _) fun _ => hR.construct _
    · exact hR.construct _
  · split
    · exact hR.bind (hR.popInitialized _) fun _ => hR.pushResult _
    · exact hR.pushResult _

theorem store (type : LocalType) (index : UInt16) (context : ExecutionContext) :
    Within R ((Op.store type index).run context) := by
  unfold Op.run
  cases type with
  | reference =>
    refine hR.bind hR.pop fun t => ?_
    dsimp only
    split
    · refine hR.bind hR.get fun f => ?_
      split
      · split
        · exact hR.bind (StackEffect.throw _) fun _ => hR.setLocal _ _
        · exact hR.setLocal _ _
      · exact hR.setLocal _ _
    · split
      · exact hR.bind (StackEffect.incompatible _ _) fun _ => hR.setLocal _ _
      · exact hR.setLocal _ _
  | numeric type => exact hR.bind (hR.popExactly _) fun _ => hR.setLocal _ _

/-- A relation that elementary changes keep holds between the frames before and after every operation. -/
theorem run (op : Op) (context : ExecutionContext) : Within R (op.run context) := by
  by_cases hstore : ∃ type index, op = .store type index
  · obtain ⟨type, index, rfl⟩ := hstore
    exact hR.store type index context
  · by_cases hinvoke : ∃ kind index, op = .invoke kind index
    · obtain ⟨kind, index, rfl⟩ := hinvoke
      exact hR.invoke context kind index
    · push Not at hstore hinvoke
      exact hR.toStackEffect.run context hstore hinvoke

end Effect

/-! ## Shape -/

/-- Frames with equally many locals and the same active subroutines. -/
def SameShape (f g : Frame) : Prop := g.locals.length = f.locals.length ∧ g.nesting = f.nesting

theorem length_clearIfWide (locals : List VType) (slot cleared : Nat) :
    (clearIfWide locals slot cleared).length = locals.length := by
  unfold clearIfWide
  split
  · split
    · exact List.length_set
    · rfl
  · rfl

theorem length_assigned (locals : List VType) (index : Nat) (t : VType) :
    (assigned locals index t).length = locals.length := by
  unfold assigned
  dsimp only
  rw [List.length_set]
  split <;> split <;> simp only [List.length_set, length_clearIfWide]

theorem sameShape_effect : Effect SameShape where
  refl _ := ⟨rfl, rfl⟩
  trans h k := ⟨k.1.trans h.1, k.2.trans h.2⟩
  stack _ _ := ⟨rfl, rfl⟩
  assign f index t _ := ⟨length_assigned f.locals index t, rfl⟩
  replace _ _ _ _ := ⟨List.length_map _, rfl⟩

/-! ## Values of two words -/

/-- The second local of a value of two words is `top`. -/
def Paired (locals : List VType) : Prop :=
  ∀ (k : Nat) (t : VType), locals[k]? = some t → width t = 2 → locals[k + 1]? = some .top

/-- Giving up a value leaves the others whole. -/
theorem Paired.set_top (h : Paired locals) (slot : Nat) : Paired (locals.set slot .top) := by
  intro k t hk hwide
  rw [List.getElem?_set] at hk ⊢
  by_cases hslot : slot = k
  · rw [if_pos hslot] at hk
    split at hk
    · obtain rfl := Option.some.inj hk
      simp [width] at hwide
    · simp at hk
  · rw [if_neg hslot] at hk
    have hnext := h k t hk hwide
    split
    · rename_i heq
      rw [if_pos (heq ▸ (List.getElem?_eq_some_iff.mp hnext).1)]
    · exact hnext

/-- What stands behind a value of two words is `top` already. -/
theorem Paired.clearIfWide_next (h : Paired locals) (slot : Nat) : clearIfWide locals slot (slot + 1) = locals := by
  unfold clearIfWide
  split
  · rename_i t ht
    split
    · rename_i hwide
      obtain ⟨hlt, htop⟩ := List.getElem?_eq_some_iff.mp (h slot t ht hwide)
      rw [← htop]
      exact List.set_getElem_self hlt
    · rfl
  · rfl

theorem paired_clearIfWide (h : Paired locals) (slot cleared : Nat) : Paired (clearIfWide locals slot cleared) := by
  unfold clearIfWide
  split
  · split
    · exact h.set_top cleared
    · exact h
  · exact h

/-- The locals in which a value that ends in a local is given up. -/
def clearedUpTo (locals : List VType) (index : Nat) : List VType :=
  if 0 < index then clearIfWide locals (index - 1) (index - 1) else locals

theorem paired_clearedUpTo (h : Paired locals) (index : Nat) : Paired (clearedUpTo locals index) := by
  unfold clearedUpTo
  split
  · exact paired_clearIfWide h _ _
  · exact h

theorem length_clearedUpTo (locals : List VType) (index : Nat) :
    (clearedUpTo locals index).length = locals.length := by
  unfold clearedUpTo
  split
  · exact length_clearIfWide _ _ _
  · rfl

/-- No value is left that ends in the local. -/
theorem width_of_clearedUpTo {k : Nat} (h : (clearedUpTo locals (k + 1))[k]? = some t) : width t ≠ 2 := by
  unfold clearedUpTo at h
  rw [if_pos (Nat.succ_pos k), Nat.add_sub_cancel] at h
  unfold clearIfWide at h
  split at h
  · rename_i u hu
    split at h
    · rw [List.getElem?_set_self (List.getElem?_eq_some_iff.mp hu).1] at h
      obtain rfl := Option.some.inj h
      simp [width]
    · rename_i hwide
      obtain rfl := Option.some.inj (hu.symm.trans h)
      exact hwide
  · rename_i hnone
    rw [hnone] at h
    simp at h

/-- Where values are whole, writing a value gives up at most the one in front. -/
theorem Paired.assigned_eq (h : Paired locals) (index : Nat) (t : VType) :
    assigned locals index t = (if width t = 2 then (clearedUpTo locals index).set (index + 1) .top
      else clearedUpTo locals index).set index t := by
  unfold assigned
  dsimp only
  rw [h.clearIfWide_next]
  have hpaired := paired_clearedUpTo h index
  change (if width t = 2 then (clearIfWide (clearedUpTo locals index) (index + 1) (index + 2)).set (index + 1) .top
    else clearedUpTo locals index).set index t = _
  rw [show index + 2 = index + 1 + 1 from rfl, hpaired.clearIfWide_next]

/-- A value is written where no other ends, and where a second word of it is `top`. -/
theorem Paired.set (h : Paired locals) {index : Nat} (hfront : ∀ k u, k + 1 = index → locals[k]? = some u → width u ≠ 2)
    (hbehind : width t = 2 → locals[index + 1]? = some .top) : Paired (locals.set index t) := by
  intro k u hk hwide
  rw [List.getElem?_set] at hk ⊢
  by_cases hindex : index = k
  · subst hindex
    rw [if_pos rfl] at hk
    split at hk
    · obtain rfl := Option.some.inj hk
      rw [if_neg (by omega)]
      exact hbehind hwide
    · simp at hk
  · rw [if_neg hindex] at hk
    by_cases hnext : index = k + 1
    · exact absurd hwide (hfront k u hnext.symm hk)
    · rw [if_neg hnext]
      exact h k u hk hwide

theorem paired_assigned (h : Paired locals) {index : Nat}
    (hfits : index + width t ≤ locals.length) : Paired (assigned locals index t) := by
  have hcleared := paired_clearedUpTo h index
  have hfront : ∀ k u, k + 1 = index → (clearedUpTo locals index)[k]? = some u → width u ≠ 2 := by
    rintro k u rfl hu
    exact width_of_clearedUpTo hu
  rw [h.assigned_eq]
  by_cases hwide : width t = 2
  · rw [if_pos hwide]
    apply (hcleared.set_top (index + 1)).set
    · intro k u hk hu
      rw [List.getElem?_set_ne (by omega)] at hu
      exact hfront k u hk hu
    · intro _
      apply List.getElem?_set_self
      rw [length_clearedUpTo]
      omega
  · rw [if_neg hwide]
    apply hcleared.set hfront
    intro hwide'
    exact absurd hwide' hwide

theorem paired_map (h : Paired locals) {swap : VType → VType} (htop : swap .top = .top)
    (hwide : ∀ t, width (swap t) = 2 → swap t = t) : Paired (locals.map swap) := by
  intro k t hk ht
  rw [List.getElem?_map] at hk ⊢
  obtain ⟨u, hu, rfl⟩ := Option.map_eq_some_iff.mp hk
  rw [hwide u ht] at ht
  rw [h k u hu ht, Option.map_some, htop]

theorem paired_effect : Effect fun f g => Paired f.locals → Paired g.locals where
  refl _ := id
  trans h k hf := k (h hf)
  stack _ _ := id
  assign f index t hfits hf := paired_assigned hf hfits
  replace f old name hold hf := by
    apply paired_map hf
    · rw [if_neg]
      rintro rfl
      simp [VType.isUninitialized] at hold
    · intro t ht
      by_cases hsame : t = old
      · rw [if_pos hsame] at ht
        simp [VType.ofClass, width] at ht
      · rw [if_neg hsame]

end Exec

namespace Frame

/-- The frame after an operation that goes through. -/
def after (f : Frame) (op : Op) (context : ExecutionContext) : Except VerifyFault Frame := do
  let ran ← (op.run context).run f
  ran.2.checkHeight context.maxStack

theorem execute_snd (f : Frame) (op : Op) (context : ExecutionContext) (registry : Registry) :
    (f.execute op context registry).2 = f.after op context := by
  unfold execute after
  cases (op.run context).run f with
  | error fault => rfl
  | ok ran => rfl

theorem checkHeight_eq_ok {maxStack : Nat} : f.checkHeight maxStack = .ok g ↔ g = f ∧ f.height ≤ maxStack := by
  unfold checkHeight
  by_cases hhigh : maxStack < f.height
  · rw [if_pos hhigh]
    simp [hhigh]
  · rw [if_neg hhigh]
    constructor
    · intro h
      exact ⟨(Except.ok.inj h).symm, Nat.le_of_not_lt hhigh⟩
    · rintro ⟨rfl, -⟩
      rfl

theorem after_eq_ok {op : Op} {context : ExecutionContext} : f.after op context = .ok g ↔
      (∃ u, (op.run context).run f = .ok (u, g)) ∧ g.height ≤ context.maxStack := by
  unfold after
  rw [bind_eq_ok]
  constructor
  · rintro ⟨⟨u, g'⟩, hrun, hcheck⟩
    obtain ⟨rfl, hheight⟩ := checkHeight_eq_ok.mp hcheck
    exact ⟨⟨u, hrun⟩, hheight⟩
  · rintro ⟨⟨u, hrun⟩, hheight⟩
    exact ⟨(u, g), hrun, checkHeight_eq_ok.mpr ⟨rfl, hheight⟩⟩

/-- An operation that goes through charges the locals that it reads or writes. -/
theorem execute_fst {op : Op} {context : ExecutionContext} (h : f.after op context = .ok g)
    (registry : Registry) : (f.execute op context registry).1 = registry.charge f.nesting op.slots := by
  obtain ⟨⟨u, hrun⟩, -⟩ := after_eq_ok.mp h
  unfold execute
  rw [hrun]

/-- What an operation keeps of a frame. -/
theorem after_effect {R : Frame → Frame → Prop} (hR : Exec.Effect R) {op : Op}
    {context : ExecutionContext} (h : f.after op context = .ok g) : R f g := by
  obtain ⟨⟨u, hrun⟩, -⟩ := after_eq_ok.mp h
  exact hR.run op context f u g hrun

theorem executeBranch_effect {R : Frame → Frame → Prop} (hR : Exec.Effect R)
    {kind : BranchKind} (h : f.executeBranch kind = .ok g) : R f g := by
  unfold executeBranch at h
  dsimp only at h
  obtain ⟨⟨u, g'⟩, hrun, rfl⟩ := map_eq_ok.mp h
  revert hrun
  refine fun hrun => (?_ : Exec.Within R _) f u g' hrun
  cases kind with
  | ifInt => exact hR.popExactly _
  | ifIntCompare => exact hR.bind (hR.popExactly _) fun _ => hR.popExactly _
  | ifRefCompare => exact hR.bind hR.popReference fun _ => hR.popReference
  | ifNull => exact hR.popReference
  | goto => exact hR.pure _

theorem executeSelect_effect {R : Frame → Frame → Prop} (hR : Exec.Effect R) (h : f.executeSelect = .ok g) : R f g := by
  unfold executeSelect at h
  obtain ⟨⟨u, g'⟩, hrun, rfl⟩ := map_eq_ok.mp h
  exact hR.popExactly _ f u g' hrun

end Frame

end Bytecode
