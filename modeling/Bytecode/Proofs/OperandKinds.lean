import Bytecode.Proofs.Simulation

/-!
# Kinds of operands

The opcode of a typed operation names the kinds of what it reads from the locals, takes off the stack and pushes.  These
signatures are written down here, apart from the checks that an operation makes when it runs, and compared with them.

* `Kind`, `Signature`: the kinds of values that opcodes name, and what an operation takes and gives;
* `Op.signature?`: the signature of each typed operation;
* `Op.fits_of_run`: an operation that goes through keeps to its signature, unless it returns a value;
* `Op.fits_of_leave`: a return keeps to the signature of the declared result of the method;
* `Op.runs_of_accepts`: an operation goes through on operands that its signature asks for.
-/

namespace Bytecode

/-! ## Kinds -/

/-- The elements that an array operation is for. -/
inductive ArrayElement.Names : ArrayElement → FieldType → Prop
  | int : Names .int (.base .int)
  | long : Names .long (.base .long)
  | float : Names .float (.base .float)
  | double : Names .double (.base .double)
  | byte : Names .byte (.base .byte)
  /-- Booleans are kept as bytes. -/
  | boolean : Names .byte (.base .boolean)
  | char : Names .char (.base .char)
  | short : Names .short (.base .short)
  | reference (type : RefType) : Names .reference (.ref type)

/-- A kind of values that an opcode can ask for. -/
inductive Kind where
  /-- A number of exactly this type. -/
  | numeric (type : NumericType)
  /-- Any reference, also to an object whose constructor has not run. -/
  | reference
  /-- `null` or an object whose constructor has run. -/
  | initialized
  /-- What `astore` takes: a reference, or a return address. -/
  | referenceOrAddress
  /-- `null`, or an array with elements that an array operation is for. -/
  | array (element : ArrayElement)

/-- A value is of a kind. -/
def Kind.Admits : Kind → VType → Prop
  | .numeric type, t => t = .ofNumeric type
  | .reference, t => t.isReference = true
  | .initialized, t => t.isInitialized = true
  | .referenceOrAddress, t => t.isReference = true ∨ ∃ entry, t = .returnAddress entry
  | .array element, t =>
    t = .null ∨ ∃ component, element.Names component ∧ component.IsCounted ∧ t = .object (.arrayOf component)

/-- The kind of the values that are returned. -/
def LocalType.kind : LocalType → Kind
  | .numeric type => .numeric type
  | .reference => .initialized

/-- The kind of the values that are found in an array; small integers are widened. -/
def ArrayElement.kind : ArrayElement → Kind
  | .int | .byte | .char | .short => .numeric .int
  | .long => .numeric .long
  | .float => .numeric .float
  | .double => .numeric .double
  | .reference => .initialized

/-- The type of a returned value that fits a declared type. -/
def FieldType.localType : FieldType → LocalType
  | .base .float => .numeric .float
  | .base .long => .numeric .long
  | .base .double => .numeric .double
  | .base _ => .numeric .int
  | .ref _ => .reference

/-- Values of some kinds stand on top of the rest of a stack. -/
inductive Kind.Atop (rest : List VType) : List Kind → List VType → Prop
  | nil : Atop rest [] rest
  | cons {kind : Kind} {t : VType} {kinds : List Kind} {stack : List VType} (ht : kind.Admits t)
      (hstack : Atop rest kinds stack) : Atop rest (kind :: kinds) (t :: stack)

/-- What a typed operation takes and gives. -/
structure Signature where
  /-- What it reads from the locals. -/
  reads : List (UInt16 × Kind)
  /-- What it pops, the top of the stack first. -/
  operands : List Kind
  /-- What it pushes. -/
  results : List Kind

/-- A return of a value. -/
def LocalType.returning (type : LocalType) : Signature := ⟨[], [type.kind], []⟩

/-- The operations on numbers: what they pop, the top of the stack first, and what they push. -/
def Op.numeric? : Op → Option (List NumericType × NumericType)
  | .arithmetic type => some ([type, type], type)
  | .negate type => some ([type], type)
  | .shift type => some ([.int, type], type)
  | .convert source target => some ([source], target)
  | .compare type => some ([type, type], .int)
  | _ => none

/-- What the opcode of a typed operation names. -/
def Op.signature? : Op → Option Signature
  | .load (.numeric type) index => some ⟨[(index, .numeric type)], [], [.numeric type]⟩
  | .load .reference index => some ⟨[(index, .reference)], [], [.reference]⟩
  | .store (.numeric type) _ => some ⟨[], [.numeric type], []⟩
  | .store .reference _ => some ⟨[], [.referenceOrAddress], []⟩
  | .arrayLoad element => some ⟨[], [.numeric .int, .array element], [element.kind]⟩
  | .arrayStore element => some ⟨[], [element.kind, .numeric .int, .array element], []⟩
  | .arithmetic type => some ⟨[], [.numeric type, .numeric type], [.numeric type]⟩
  | .negate type => some ⟨[], [.numeric type], [.numeric type]⟩
  | .shift type => some ⟨[], [.numeric .int, .numeric type], [.numeric type]⟩
  | .convert source target => some ⟨[], [.numeric source], [.numeric target]⟩
  | .compare type => some ⟨[], [.numeric type, .numeric type], [.numeric .int]⟩
  | .leave none => some ⟨[], [], []⟩
  | .leave (some type) => some type.returning
  | _ => none

namespace Signature

/-- The locals that are read have values of the kinds that are asked for. -/
def ReadsFrom (sig : Signature) (locals : List VType) : Prop :=
  ∀ read ∈ sig.reads, ∃ t, locals[read.1.toNat]? = some t ∧ read.2.Admits t

/-- A frame has operands of the kinds that are asked for. -/
def Accepts (sig : Signature) (f : Frame) : Prop :=
  sig.ReadsFrom f.locals ∧ ∃ rest, Kind.Atop rest sig.operands f.stack

/-- Operands of the kinds that are asked for give way to results of the kinds that are named, and the rest of the stack
stays. -/
def Fits (sig : Signature) (f g : Frame) : Prop :=
  sig.ReadsFrom f.locals ∧ ∃ rest, Kind.Atop rest sig.operands f.stack ∧ Kind.Atop rest sig.results g.stack

end Signature

/-! ## What each operation asks for -/

namespace Exec

variable {α : Type} {f g : Frame} {u : Unit} {r : α × Frame}

theorem lift_bind_eq_ok {β : Type} {x : Except VerifyFault β} {k : β → Exec α} :
    (liftM x >>= k) f = .ok r ↔ ∃ b, x = .ok b ∧ k b f = .ok r := by
  simp only [state_bind_eq_ok, state_lift_eq_ok, Prod.mk.injEq]
  constructor
  · rintro ⟨b, _, ⟨_, hx, rfl, rfl⟩, hk⟩
    exact ⟨b, hx, hk⟩
  · rintro ⟨b, hx, hk⟩
    exact ⟨b, f, ⟨b, hx, rfl, rfl⟩, hk⟩

/-- A check passes or ends the computation. -/
theorem check_eq_ok {p : Prop} [Decidable p] {x z : Exec α} (hz : Fails z) :
    (if p then z else x) f = .ok r ↔ ¬ p ∧ x f = .ok r := by
  by_cases hp : p
  · simp [hp, hz f r]
  · simp [hp]

theorem popExactly_bind_eq_ok {t : VType} {k : Unit → Exec α} :
    (popExactly t >>= k) f = .ok r ↔ ∃ rest, f.stack = t :: rest ∧ k () { f with stack := rest } = .ok r := by
  have hcheck : ∀ (found : VType) (f : Frame),
      ((if found ≠ t then incompatible (.exactly t) found else pure ()) >>= k) f = .ok r ↔ found = t ∧ k () f = .ok r := by
    intro found f
    by_cases hsame : found = t
    · simp [hsame]
    · simp only [ne_eq, hsame, not_false_eq_true, if_true, false_and, iff_false]
      exact fails_incompatible_bind _ _ _ f r
  unfold popExactly
  simp only [bind_assoc, pop_bind_eq_ok, hcheck]
  constructor
  · rintro ⟨_, rest, hstack, rfl, hk⟩
    exact ⟨rest, hstack, hk⟩
  · rintro ⟨rest, hstack, hk⟩
    exact ⟨t, rest, hstack, rfl, hk⟩

variable {context : ExecutionContext}

theorem run_load_reference {index : UInt16} : (Op.load .reference index).run context f = .ok (u, g) ↔
    ∃ t, f.locals[index.toNat]? = some t ∧ t.isReference = true ∧ g = { f with stack := t :: f.stack } := by
  unfold Op.run
  simp only [state_bind_eq_ok, getLocal_eq_ok, check_eq_ok (fails_incompatible_bind _ _ _), push_eq_ok,
    Bool.not_eq_true', Bool.not_eq_false]
  constructor
  · rintro ⟨t, _, ⟨hlocal, rfl⟩, hreference, rfl⟩
    exact ⟨t, hlocal, hreference, rfl⟩
  · rintro ⟨t, hlocal, hreference, rfl⟩
    exact ⟨t, f, ⟨hlocal, rfl⟩, hreference, rfl⟩

theorem run_load_numeric {type : NumericType} {index : UInt16} : (Op.load (.numeric type) index).run context f = .ok (u, g) ↔
    f.locals[index.toNat]? = some (.ofNumeric type) ∧ g = { f with stack := .ofNumeric type :: f.stack } := by
  unfold Op.run checkLocal
  simp only [state_bind_eq_ok, getLocal_eq_ok, check_eq_ok (fails_incompatible _ _), push_eq_ok,
    state_pure_eq_ok, ne_eq, Decidable.not_not]
  constructor
  · rintro ⟨_, _, ⟨_, _, ⟨hlocal, rfl⟩, rfl, hpure⟩, rfl⟩
    obtain ⟨-, rfl⟩ := Prod.mk.inj hpure
    exact ⟨hlocal, rfl⟩
  · rintro ⟨hlocal, rfl⟩
    exact ⟨(), f, ⟨_, f, ⟨hlocal, rfl⟩, rfl, rfl⟩, rfl⟩

theorem run_store_numeric {type : NumericType} {index : UInt16} :
    (Op.store (.numeric type) index).run context f = .ok (u, g) ↔ ∃ rest, f.stack = .ofNumeric type :: rest ∧
      setLocal index (.ofNumeric type) { f with stack := rest } = .ok (u, g) :=
  popExactly_bind_eq_ok

theorem run_arrayLoad {element : ArrayElement} : (Op.arrayLoad element).run context f = .ok (u, g) ↔
    ∃ array t rest, f.stack = .int :: array :: rest ∧ arrayElementType array element = .ok t ∧
      g = { f with stack := t :: rest } := by
  unfold Op.run
  simp only [popExactly_bind_eq_ok, pop_bind_eq_ok, lift_bind_eq_ok, push_eq_ok]
  constructor
  · rintro ⟨_, hstack, array, rest, rfl, t, helement, rfl⟩
    exact ⟨array, t, rest, hstack, helement, rfl⟩
  · rintro ⟨array, t, rest, hstack, helement, rfl⟩
    exact ⟨_, hstack, array, rest, rfl, t, helement, rfl⟩

theorem run_arrayStore {element : ArrayElement} : (Op.arrayStore element).run context f = .ok (u, g) ↔
    ∃ value array t rest, f.stack = value :: .int :: array :: rest ∧ arrayElementType array element = .ok t ∧
      storable t value = true ∧ g = { f with stack := rest } := by
  unfold Op.run
  simp only [popExactly_bind_eq_ok, pop_bind_eq_ok, lift_bind_eq_ok, check_eq_ok (fails_incompatible _ _),
    state_pure_eq_ok, Bool.not_eq_true', Bool.not_eq_false]
  constructor
  · rintro ⟨value, _, hstack, _, rfl, array, rest, rfl, t, helement, hstorable, hpure⟩
    obtain ⟨-, rfl⟩ := Prod.mk.inj hpure
    exact ⟨value, array, t, rest, hstack, helement, hstorable, rfl⟩
  · rintro ⟨value, array, t, rest, hstack, helement, hstorable, rfl⟩
    exact ⟨value, _, hstack, _, rfl, array, rest, rfl, t, helement, hstorable, rfl⟩

theorem run_leave {type : LocalType} : (Op.leave (some type)).run context f = .ok (u, g) ↔
    ∃ declared t rest, context.returnType = some declared ∧ f.stack = t :: rest ∧
      (type == .reference) = (VType.ofField declared).isReference ∧ t.assignable (.ofField declared) = true ∧
      g = { f with stack := rest } := by
  unfold Op.run returnValue
  cases context.returnType with
  | none => simp
  | some declared =>
    simp only [pop_bind_eq_ok, check_eq_ok (fails_throw _), state_pure_eq_ok, not_or, ne_eq, Decidable.not_not,
      Bool.not_eq_true', Bool.not_eq_false, Option.some_inj]
    constructor
    · rintro ⟨t, rest, hstack, ⟨hsame, hassignable⟩, hpure⟩
      obtain ⟨-, rfl⟩ := Prod.mk.inj hpure
      exact ⟨declared, t, rest, rfl, hstack, hsame, hassignable, rfl⟩
    · rintro ⟨_, t, rest, rfl, hstack, hsame, hassignable, rfl⟩
      exact ⟨t, rest, hstack, ⟨hsame, hassignable⟩, rfl⟩

theorem run_leave_none : (Op.leave none).run context f = .ok (u, g) ↔ context.returnType = none ∧ g = f := by
  unfold Op.run
  simp only [check_eq_ok (fails_throw _), state_pure_eq_ok, Option.not_isSome_iff_eq_none, Prod.mk.injEq, true_and,
    @eq_comm Frame]

theorem run_numeric {op : Op} {operands : List NumericType} {result : NumericType}
    (hop : op.numeric? = some (operands, result)) : op.run context f = .ok (u, g) ↔
      ∃ rest, f.stack = operands.map .ofNumeric ++ rest ∧ g = { f with stack := .ofNumeric result :: rest } := by
  have hpair : ∀ a b : VType, (∃ rest, f.stack = a :: rest ∧ ∃ rest', rest = b :: rest' ∧
      g = { f with stack := .ofNumeric result :: rest' }) ↔
        ∃ rest, f.stack = a :: b :: rest ∧ g = { f with stack := .ofNumeric result :: rest } := by
    intro a b
    constructor
    · rintro ⟨_, hstack, rest, rfl, hg⟩
      exact ⟨rest, hstack, hg⟩
    · rintro ⟨rest, hstack, hg⟩
      exact ⟨_, hstack, rest, rfl, hg⟩
  unfold Op.run
  cases op with
  | arithmetic | shift | compare =>
    obtain ⟨rfl, rfl⟩ := Prod.mk.inj (Option.some.inj hop)
    simp only [popExactly_bind_eq_ok, push_eq_ok]
    exact hpair _ _
  | negate | convert =>
    obtain ⟨rfl, rfl⟩ := Prod.mk.inj (Option.some.inj hop)
    simp only [popExactly_bind_eq_ok, push_eq_ok]
    rfl
  | _ => cases hop

end Exec

/-! ## Kinds of elements and results -/

section Kinds

variable {element : ArrayElement} {component declared : FieldType} {array t : VType}

theorem VType.ofNumeric_injective {m n : NumericType} (h : VType.ofNumeric m = .ofNumeric n) : m = n := by
  cases m <;> cases n <;> simp [VType.ofNumeric] at h ⊢

theorem ArrayElement.names_iff : element.Names component ↔ Exec.fits component element = true := by
  constructor
  · intro h
    cases h <;> rfl
  · intro h
    cases component with
    | ref type =>
      cases element with
      | reference => exact .reference type
      | _ => simp [Exec.fits] at h
    | base base =>
      cases base <;> cases element <;> simp [Exec.fits] at h <;> constructor

theorem Exec.arrayElementType_eq_ok : Exec.arrayElementType array element = .ok t ↔
    (array = .null ∧ t = Exec.nullElement element) ∨
      ∃ component, element.Names component ∧ (component.IsCounted ∧ array = .object (.arrayOf component)) ∧
        t = .ofField component := by
  cases array with
  | object type =>
    rw [Exec.arrayElementType_object]
    simp only [RefType.elementType?_eq_some_iff, ArrayElement.names_iff, reduceCtorEq, false_and, false_or, VType.object.injEq]
    constructor
    · rintro ⟨component, htype, hfits, ht⟩
      exact ⟨component, hfits, htype.symm, ht⟩
    · rintro ⟨component, hfits, htype, ht⟩
      exact ⟨component, htype.symm, hfits, ht⟩
  | null => simp [Exec.arrayElementType, eq_comm]
  | _ => simp [Exec.arrayElementType]

theorem Kind.array_admits_iff : (Kind.array element).Admits array ↔ ∃ t, Exec.arrayElementType array element = .ok t := by
  simp only [Exec.arrayElementType_eq_ok]
  constructor
  · rintro (hnull | ⟨component, hnames, harray⟩)
    · exact ⟨_, Or.inl ⟨hnull, rfl⟩⟩
    · exact ⟨_, Or.inr ⟨component, hnames, harray, rfl⟩⟩
  · rintro ⟨t, ⟨hnull, -⟩ | ⟨component, hnames, harray, -⟩⟩
    · exact Or.inl hnull
    · exact Or.inr ⟨component, hnames, harray⟩

/-- What is found in an array is of the kind of its elements. -/
theorem ArrayElement.kind_admits (h : Exec.arrayElementType array element = .ok t) : element.kind.Admits t := by
  rcases Exec.arrayElementType_eq_ok.mp h with ⟨-, rfl⟩ | ⟨component, hnames, -, rfl⟩
  · cases element <;> rfl
  · cases hnames <;> rfl

/-- An array takes the values that are of the kind of its elements. -/
theorem ArrayElement.storable_iff {value : VType} (h : element.kind.Admits t) :
    Exec.storable t value = true ↔ element.kind.Admits value := by
  have hnumeric : ∀ n : NumericType, t = .ofNumeric n → (Exec.storable t value = true ↔ value = .ofNumeric n) := by
    rintro n rfl
    rw [Exec.storable_ofNumeric, decide_eq_true_iff, eq_comm]
  cases element with
  | reference => exact Bool.eq_iff_iff.mp (Exec.storable_of_isInitialized h value)
  | _ => exact hnumeric _ h

/-- A declared type is that of a number or of a reference. -/
theorem FieldType.localType_cases (declared : FieldType) :
    (∃ n, declared.localType = .numeric n ∧ VType.ofField declared = .ofNumeric n) ∨
      ∃ type, declared.localType = .reference ∧ VType.ofField declared = .object type := by
  cases declared with
  | ref type => exact Or.inr ⟨type, rfl, rfl⟩
  | base base => cases base <;> exact Or.inl ⟨_, rfl, rfl⟩

theorem LocalType.kind_admits_iff {type : LocalType} : type.kind.Admits (.ofField declared) ↔ declared.localType = type := by
  rcases declared.localType_cases with ⟨n, htype, hfield⟩ | ⟨r, htype, hfield⟩
  · rw [htype, hfield]
    cases type with
    | numeric m =>
      constructor
      · intro h
        rw [VType.ofNumeric_injective h]
      · intro h
        rw [LocalType.numeric.inj h]
        rfl
    | reference => cases n <;> simp [LocalType.kind, Kind.Admits, VType.isInitialized, VType.ofNumeric]
  · rw [htype, hfield]
    cases type with
    | numeric m => cases m <;> simp [LocalType.kind, Kind.Admits, VType.ofNumeric]
    | reference => simp [LocalType.kind, Kind.Admits, VType.isInitialized]

theorem VType.assignable_ofField_iff : t.assignable (.ofField declared) = true ↔ declared.localType.kind.Admits t := by
  rcases declared.localType_cases with ⟨n, htype, hfield⟩ | ⟨r, htype, hfield⟩
  · rw [htype, hfield]
    cases n <;> cases t <;> simp [VType.assignable, VType.ofNumeric, LocalType.kind, Kind.Admits]
  · rw [htype, hfield]
    cases t <;> simp [VType.assignable, LocalType.kind, Kind.Admits, VType.isInitialized]

theorem FieldType.isReference_iff : (VType.ofField declared).isReference = true ↔ declared.localType = .reference := by
  rcases declared.localType_cases with ⟨n, htype, hfield⟩ | ⟨r, htype, hfield⟩
  · rw [htype, hfield]
    cases n <;> simp [VType.isReference, VType.ofNumeric]
  · rw [htype, hfield]
    simp [VType.isReference]

end Kinds

/-! ## Operations and their signatures -/

theorem Kind.atop_numeric_iff {types : List NumericType} {stack rest : List VType} :
    Kind.Atop rest (types.map .numeric) stack ↔ stack = types.map .ofNumeric ++ rest := by
  induction types generalizing stack with
  | nil =>
    constructor
    · rintro ⟨⟩
      rfl
    · rintro rfl
      exact .nil
  | cons type types ih =>
    constructor
    · rintro (_ | ⟨rfl, hstack⟩)
      rw [ih.mp hstack]
      rfl
    · rintro rfl
      exact .cons rfl (ih.mpr rfl)

theorem Kind.atop_cons_iff {kind : Kind} {kinds : List Kind} {stack rest : List VType} :
    Kind.Atop rest (kind :: kinds) stack ↔ ∃ t tail, stack = t :: tail ∧ kind.Admits t ∧ Kind.Atop rest kinds tail := by
  constructor
  · rintro (_ | ⟨ht, hstack⟩)
    exact ⟨_, _, rfl, ht, hstack⟩
  · rintro ⟨t, tail, rfl, ht, hstack⟩
    exact .cons ht hstack

/-- What an operation asks for apart from its operands: a local to store into, which does not have the address of another
subroutine if it is to take a return address, and a method that returns the kind of values that it does. -/
def Op.Allowed (context : ExecutionContext) (f : Frame) : Op → Prop
  | .store _ index => ∀ t rest, f.stack = t :: rest → index.toNat + width t ≤ f.locals.length ∧
      ∀ new old, t = .returnAddress new → f.locals[index.toNat]? = some (.returnAddress old) → old = new
  | .leave none => context.returnType = none
  | .leave (some type) => ∃ declared, context.returnType = some declared ∧ declared.localType = type
  | _ => True

section Operations

variable {op : Op} {sig : Signature} {context : ExecutionContext} {f g : Frame} {u : Unit}

theorem Signature.fits_of_atop {operands results : List Kind} {rest : List VType} (hf : Kind.Atop rest operands f.stack)
    (hg : Kind.Atop rest results g.stack) : (Signature.mk [] operands results).Fits f g :=
  ⟨by simp [ReadsFrom], rest, hf, hg⟩

theorem Signature.fits_of_read {index : UInt16} {kind : Kind} {t : VType} (hlocal : f.locals[index.toNat]? = some t)
    (ht : kind.Admits t) : (Signature.mk [(index, kind)] [] [kind]).Fits f { f with stack := t :: f.stack } :=
  ⟨by simp [ReadsFrom, hlocal, ht], f.stack, .nil, .cons ht .nil⟩

theorem Op.fits_of_numeric {operands : List NumericType} {result : NumericType} (hop : op.numeric? = some (operands, result))
    (h : op.run context f = .ok (u, g)) : (Signature.mk [] (operands.map .numeric) [.numeric result]).Fits f g := by
  obtain ⟨rest, hstack, rfl⟩ := (Exec.run_numeric hop).mp h
  exact Signature.fits_of_atop (Kind.atop_numeric_iff.mpr hstack) (.cons rfl .nil)

/-- An operation that goes through has had operands of the kinds that its opcode names, unless it returns a value. -/
theorem Op.fits_of_run (hsig : op.signature? = some sig) (hleave : ∀ type, op ≠ .leave (some type))
    (h : op.run context f = .ok (u, g)) : sig.Fits f g := by
  cases op with
  | load type index =>
    cases type with
    | numeric type =>
      obtain rfl := Option.some.inj hsig
      obtain ⟨hlocal, rfl⟩ := Exec.run_load_numeric.mp h
      exact Signature.fits_of_read hlocal rfl
    | reference =>
      obtain rfl := Option.some.inj hsig
      obtain ⟨t, hlocal, hreference, rfl⟩ := Exec.run_load_reference.mp h
      exact Signature.fits_of_read hlocal hreference
  | store type index =>
    cases type with
    | numeric type =>
      obtain rfl := Option.some.inj hsig
      obtain ⟨rest, hstack, hset⟩ := Exec.run_store_numeric.mp h
      obtain ⟨-, rfl⟩ := Exec.setLocal_eq_ok.mp hset
      refine Signature.fits_of_atop ?_ .nil
      rw [hstack]
      exact .cons rfl .nil
    | reference =>
      obtain rfl := Option.some.inj hsig
      obtain ⟨t, rest, hstack, ht, hset⟩ := Exec.storeReference_eq_ok.mp h
      obtain ⟨-, rfl⟩ := Exec.setLocal_eq_ok.mp hset
      refine Signature.fits_of_atop ?_ .nil
      rw [hstack]
      exact .cons (ht.imp_right fun ⟨entry, hentry, _⟩ => ⟨entry, hentry⟩) .nil
  | arrayLoad element =>
    obtain rfl := Option.some.inj hsig
    obtain ⟨array, t, rest, hstack, helement, rfl⟩ := Exec.run_arrayLoad.mp h
    refine Signature.fits_of_atop ?_ (.cons (ArrayElement.kind_admits helement) .nil)
    rw [hstack]
    exact .cons rfl (.cons (Kind.array_admits_iff.mpr ⟨t, helement⟩) .nil)
  | arrayStore element =>
    obtain rfl := Option.some.inj hsig
    obtain ⟨value, array, t, rest, hstack, helement, hstorable, rfl⟩ := Exec.run_arrayStore.mp h
    refine Signature.fits_of_atop ?_ .nil
    rw [hstack]
    exact .cons ((ArrayElement.storable_iff (ArrayElement.kind_admits helement)).mp hstorable)
      (.cons rfl (.cons (Kind.array_admits_iff.mpr ⟨t, helement⟩) .nil))
  | arithmetic | negate | shift | convert | compare =>
    obtain rfl := Option.some.inj hsig
    exact Op.fits_of_numeric rfl h
  | leave type =>
    cases type with
    | some type => exact absurd rfl (hleave type)
    | none =>
      obtain rfl := Option.some.inj hsig
      obtain ⟨-, rfl⟩ := Exec.run_leave_none.mp h
      exact Signature.fits_of_atop .nil .nil
  | _ => cases hsig

/-- A return takes a value of the kind that the method declares. -/
theorem Op.fits_of_leave {type : LocalType} (h : (Op.leave (some type)).run context f = .ok (u, g)) :
    ∃ declared, context.returnType = some declared ∧ (type = .reference ↔ declared.localType = .reference) ∧
      declared.localType.returning.Fits f g := by
  obtain ⟨declared, t, rest, hdeclared, hstack, hsame, hassignable, rfl⟩ := Exec.run_leave.mp h
  refine ⟨declared, hdeclared, ?_, Signature.fits_of_atop ?_ .nil⟩
  · rw [← FieldType.isReference_iff, ← hsame, beq_iff_eq]
  · rw [hstack]
    exact .cons (VType.assignable_ofField_iff.mp hassignable) .nil

theorem Op.runs_of_numeric {operands : List NumericType} {result : NumericType} (hop : op.numeric? = some (operands, result))
    (h : (Signature.mk [] (operands.map .numeric) [.numeric result]).Accepts f) : ∃ g, op.run context f = .ok ((), g) := by
  obtain ⟨-, rest, hoperands⟩ := h
  exact ⟨_, (Exec.run_numeric hop).mpr ⟨rest, Kind.atop_numeric_iff.mp hoperands, rfl⟩⟩

/-- An operation goes through on operands of the kinds that its opcode names. -/
theorem Op.runs_of_accepts (hsig : op.signature? = some sig) (hallowed : op.Allowed context f) (h : sig.Accepts f) :
    ∃ g, op.run context f = .ok ((), g) := by
  cases op with
  | load type index =>
    cases type with
    | numeric type =>
      obtain rfl := Option.some.inj hsig
      obtain ⟨t, hlocal, rfl⟩ := h.1 _ (List.mem_singleton.mpr rfl)
      exact ⟨_, Exec.run_load_numeric.mpr ⟨hlocal, rfl⟩⟩
    | reference =>
      obtain rfl := Option.some.inj hsig
      obtain ⟨t, hlocal, hreference⟩ := h.1 _ (List.mem_singleton.mpr rfl)
      exact ⟨_, Exec.run_load_reference.mpr ⟨t, hlocal, hreference, rfl⟩⟩
  | store type index =>
    cases type with
    | numeric type =>
      obtain rfl := Option.some.inj hsig
      obtain ⟨-, rest, hoperands⟩ := h
      obtain ⟨t, _, hstack, rfl, ⟨⟩⟩ := Kind.atop_cons_iff.mp hoperands
      exact ⟨_, Exec.run_store_numeric.mpr ⟨rest, hstack, Exec.setLocal_eq_ok.mpr ⟨(hallowed _ _ hstack).1, rfl⟩⟩⟩
    | reference =>
      obtain rfl := Option.some.inj hsig
      obtain ⟨-, rest, hoperands⟩ := h
      obtain ⟨t, _, hstack, ht, ⟨⟩⟩ := Kind.atop_cons_iff.mp hoperands
      obtain ⟨hroom, haddress⟩ := hallowed _ _ hstack
      refine ⟨_, Exec.storeReference_eq_ok.mpr ⟨t, rest, hstack, ?_, Exec.setLocal_eq_ok.mpr ⟨hroom, rfl⟩⟩⟩
      exact ht.imp_right fun ⟨entry, hentry⟩ => ⟨entry, hentry, fun old => haddress entry old hentry⟩
  | arrayLoad element =>
    obtain rfl := Option.some.inj hsig
    obtain ⟨-, rest, hoperands⟩ := h
    obtain ⟨_, _, hstack, rfl, hlast⟩ := Kind.atop_cons_iff.mp hoperands
    obtain ⟨array, _, rfl, harray, ⟨⟩⟩ := Kind.atop_cons_iff.mp hlast
    obtain ⟨t, helement⟩ := Kind.array_admits_iff.mp harray
    exact ⟨_, Exec.run_arrayLoad.mpr ⟨array, t, rest, hstack, helement, rfl⟩⟩
  | arrayStore element =>
    obtain rfl := Option.some.inj hsig
    obtain ⟨-, rest, hoperands⟩ := h
    obtain ⟨value, _, hstack, hvalue, hbelow⟩ := Kind.atop_cons_iff.mp hoperands
    obtain ⟨_, _, rfl, rfl, hlast⟩ := Kind.atop_cons_iff.mp hbelow
    obtain ⟨array, _, rfl, harray, ⟨⟩⟩ := Kind.atop_cons_iff.mp hlast
    obtain ⟨t, helement⟩ := Kind.array_admits_iff.mp harray
    have hstorable := (ArrayElement.storable_iff (ArrayElement.kind_admits helement)).mpr hvalue
    exact ⟨_, Exec.run_arrayStore.mpr ⟨value, array, t, rest, hstack, helement, hstorable, rfl⟩⟩
  | arithmetic | negate | shift | convert | compare =>
    obtain rfl := Option.some.inj hsig
    exact Op.runs_of_numeric rfl h
  | leave type =>
    cases type with
    | none => exact ⟨f, Exec.run_leave_none.mpr ⟨hallowed, rfl⟩⟩
    | some type =>
      obtain rfl := Option.some.inj hsig
      obtain ⟨-, rest, hoperands⟩ := h
      obtain ⟨t, _, hstack, ht, ⟨⟩⟩ := Kind.atop_cons_iff.mp hoperands
      obtain ⟨declared, hdeclared, rfl⟩ := hallowed
      refine ⟨_, Exec.run_leave.mpr ⟨declared, t, rest, hdeclared, hstack, ?_, VType.assignable_ofField_iff.mpr ht, rfl⟩⟩
      rw [Bool.eq_iff_iff, FieldType.isReference_iff, beq_iff_eq]
  | _ => cases hsig

theorem Frame.checkHeight_eq_error {maxStack : Nat} {fault : VerifyFault} (h : f.checkHeight maxStack = .error fault) :
    fault = .stackOverflow := by
  unfold checkHeight at h
  split at h
  · exact (Except.error.inj h).symm
  · simp at h

theorem Frame.run_of_execute {registry r : Registry} (h : f.execute op context registry = (r, .ok g)) :
    ∃ u, op.run context f = .ok (u, g) := by
  have hafter : f.after op context = .ok g := by rw [← execute_snd f op context registry, h]
  exact (after_eq_ok.mp hafter).1

/-- Typed operations only go through on operands of the kinds that their opcodes name, and replace them by results of the
kinds that are named, but for returns: the value returned is of the kind that the method declares, which has to be the kind
of the opcode only as far as references are concerned.  On operands of these kinds an operation is refused only because the
stack gets too high. -/
theorem operands_checked (hsig : op.signature? = some sig) (context : ExecutionContext) (f : Frame) (registry : Registry) :
    (∀ r g, f.execute op context registry = (r, .ok g) → (∀ type, op ≠ .leave (some type)) → sig.Fits f g) ∧
    (∀ r g type, f.execute op context registry = (r, .ok g) → op = .leave (some type) →
      ∃ declared, context.returnType = some declared ∧ declared.localType.returning.Fits f g ∧
        (type = .reference ↔ declared.localType = .reference) ∧
        (sig.Fits f g ∧ type.kind.Admits (.ofField declared) ↔ declared.localType = type)) ∧
    (sig.Accepts f → op.Allowed context f →
      ∀ r fault, f.execute op context registry = (r, .error fault) → fault = .stackOverflow) := by
  refine ⟨?_, ?_, ?_⟩
  · intro r g h hleave
    obtain ⟨u, hrun⟩ := Frame.run_of_execute h
    exact Op.fits_of_run hsig hleave hrun
  · rintro r g type h rfl
    obtain rfl := Option.some.inj hsig
    obtain ⟨u, hrun⟩ := Frame.run_of_execute h
    obtain ⟨declared, hdeclared, hreference, hfits⟩ := Op.fits_of_leave hrun
    refine ⟨declared, hdeclared, hfits, hreference, ?_⟩
    rw [LocalType.kind_admits_iff]
    constructor
    · exact And.right
    · rintro rfl
      exact ⟨hfits, rfl⟩
  · intro haccepts hallowed r fault h
    obtain ⟨g, hrun⟩ := Op.runs_of_accepts hsig hallowed haccepts
    have hcheck : g.checkHeight context.maxStack = .error fault := by
      rw [Frame.execute, show (op.run context).run f = .ok ((), g) from hrun] at h
      exact (Prod.mk.inj h).2
    exact Frame.checkHeight_eq_error hcheck

end Operations

/-- A place in a method that returns a `float`. -/
def floatMethod : ExecutionContext := ⟨1, 1, .object, some (.base .float), ConstantPool.empty.resolver⟩

/-- An operation that returns an `int` takes the `float` that the method declares.  A byte can be loaded from an array of
booleans. -/
theorem operands_checked_floatMethod :
    ((Op.leave (some (.numeric .int))).signature? = some (LocalType.returning (.numeric .int)) ∧
      Frame.execute ⟨[], [.float], []⟩ (.leave (some (.numeric .int))) floatMethod (.empty 0) = (.empty 0, .ok ⟨[], [], []⟩) ∧
      (LocalType.returning (.numeric .float)).Fits ⟨[], [.float], []⟩ ⟨[], [], []⟩ ∧
      ¬ (LocalType.returning (.numeric .int)).Fits ⟨[], [.float], []⟩ ⟨[], [], []⟩) ∧
    (Op.arrayLoad .byte).signature? = some ⟨[], [.numeric .int, .array .byte], [.numeric .int]⟩ ∧
      (Signature.mk [] [.numeric .int, .array .byte] [.numeric .int]).Fits
        ⟨[], [.int, .object (.arrayOf (.base .boolean))], []⟩ ⟨[], [.int], []⟩ := by
  have hreturn : Frame.execute ⟨[], [.float], []⟩ (.leave (some (.numeric .int))) floatMethod (.empty 0) =
      (.empty 0, .ok ⟨[], [], []⟩) := rfl
  have hload : Frame.execute ⟨[], [.int, .object (.arrayOf (.base .boolean))], []⟩ (.arrayLoad .byte) floatMethod (.empty 0) =
      (.empty 0, .ok ⟨[], [.int], []⟩) := rfl
  obtain ⟨-, hleave, -⟩ := operands_checked (rfl : (Op.leave (some (.numeric .int))).signature? = _) floatMethod
    ⟨[], [.float], []⟩ (.empty 0)
  obtain ⟨hfits, -, -⟩ := operands_checked (rfl : (Op.arrayLoad .byte).signature? = _) floatMethod
    ⟨[], [.int, .object (.arrayOf (.base .boolean))], []⟩ (.empty 0)
  obtain ⟨declared, hdeclared, hreturned, -, -⟩ := hleave _ _ _ hreturn rfl
  obtain rfl := Option.some.inj hdeclared
  refine ⟨⟨rfl, hreturn, hreturned, ?_⟩, rfl, hfits _ _ hload (by simp)⟩
  rintro ⟨-, rest, hoperands, -⟩
  obtain ⟨t, _, hstack, ht, -⟩ := Kind.atop_cons_iff.mp hoperands
  obtain ⟨rfl, -⟩ := List.cons.inj hstack
  cases ht

end Bytecode
