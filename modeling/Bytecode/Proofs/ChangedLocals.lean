import Bytecode.Proofs.Accesses

/-!
# Locals that an operation changes

Behind a return, locals that the subroutine did not access have the types from before the call.  So every local whose
type an operation changes should be charged to the active subroutines.  Operations are charged for the locals that they
name (`Op.slots`), and two of them change others: a store gives up a value of two words that ends in the local it
writes to, and a constructor initializes all copies of its object.

* `Exec.Paired.changed_assigned`: what writing a value changes, where values are whole;
* `Frame.Uncharged`: an operation changes a local that it does not name;
* `changed_local_charged_iff`: these are the only changes that are not charged.
-/

namespace Bytecode

namespace Exec

/-- Changes of the stack leave the locals alone. -/
theorem locals_effect : StackEffect fun f g => g.locals = f.locals where
  refl _ := rfl
  trans hfg hgh := hgh.trans hfg
  stack _ _ := rfl

/-- Where values are whole, writing a value changes the locals that the value takes up and, if a value of two words ends
in the first of them, the local in front. -/
theorem Paired.changed_assigned {locals : List VType} (h : Paired locals) {index slot : Nat} {t : VType}
    (hchanged : (assigned locals index t)[slot]? ≠ locals[slot]?) :
    slot ∈ List.range' index (width t) ∨ index = slot + 1 ∧ (assigned locals index t)[slot]? = some .top ∧
      ∃ u, locals[slot]? = some u ∧ width u = 2 := by
  have hwidth : width t = 1 ∨ width t = 2 := by
    cases t <;> simp [width]
  rw [List.mem_range'_1]
  by_cases hinside : index ≤ slot ∧ slot < index + width t
  · exact Or.inl hinside
  right
  -- outside of the value only the local in front of it can be cleared
  have houtside : (assigned locals index t)[slot]? = (clearedUpTo locals index)[slot]? := by
    rw [h.assigned_eq, List.getElem?_set_ne (by omega)]
    split
    · rw [List.getElem?_set_ne (by omega)]
    · rfl
  rw [houtside] at hchanged ⊢
  unfold clearedUpTo clearIfWide at hchanged ⊢
  split at hchanged
  · rename_i hpos
    rw [if_pos hpos]
    split at hchanged
    · rename_i u hu
      split at hchanged
      · rename_i hwide
        have hslot : index - 1 = slot := by
          by_contra hne
          exact hchanged (List.getElem?_set_ne hne)
        subst hslot
        rw [hu]
        refine ⟨by omega, ?_, u, rfl, hwide⟩
        rw [if_pos hwide, List.getElem?_set_self (List.getElem?_eq_some_iff.mp hu).1]
      · exact absurd rfl hchanged
    · exact absurd rfl hchanged
  · exact absurd rfl hchanged

/-- A store writes a value that takes up the locals that are named. -/
theorem locals_store {f g : Frame} {type : LocalType} {index : UInt16} {context : ExecutionContext} {u : Unit}
    (h : (Op.store type index).run context f = .ok (u, g)) :
    ∃ t, (Op.store type index).slots = List.range' index.toNat (width t) ∧
      index.toNat + width t ≤ f.locals.length ∧ g.locals = assigned f.locals index.toNat t := by
  cases type with
  | reference =>
    obtain ⟨t, rest, -, hkind, hset⟩ := storeReference_eq_ok.mp h
    obtain ⟨hfits, rfl⟩ := setLocal_eq_ok.mp hset
    have hwidth : width t = 1 := by
      rcases hkind with hreference | ⟨entry, rfl, -⟩
      · cases t <;> simp [VType.isReference, width] at hreference ⊢
      · rfl
    exact ⟨t, by rw [hwidth]; rfl, hfits, rfl⟩
  | numeric type =>
    obtain ⟨_, f', hpop, hset⟩ := state_bind_eq_ok.mp h
    have hlocals : f'.locals = f.locals := locals_effect.popExactly _ f _ f' hpop
    obtain ⟨hfits, rfl⟩ := setLocal_eq_ok.mp hset
    rw [hlocals] at hfits
    exact ⟨.ofNumeric type, rfl, hfits, by rw [hlocals]⟩

/-- A constructor initializes the copies of an object. -/
theorem locals_construct {f g : Frame} {thisClass : BinaryName} {u : Unit} (h : construct thisClass f = .ok (u, g)) :
    ∃ old name, old.isUninitialized = true ∧ g.locals = f.locals.map fun t => if t = old then .ofClass name else t := by
  obtain ⟨object, f', hpop, hrest⟩ := state_bind_eq_ok.mp h
  have hlocals : f'.locals = f.locals := locals_effect.pop f _ f' hpop
  rw [← hlocals]
  cases object with
  | uninitializedThis =>
    obtain ⟨-, rfl⟩ := Prod.mk.inj (Except.ok.inj hrest)
    exact ⟨.uninitializedThis, thisClass, rfl, rfl⟩
  | uninitialized position name =>
    obtain ⟨-, rfl⟩ := Prod.mk.inj (Except.ok.inj hrest)
    exact ⟨.uninitialized position name, name, rfl, rfl⟩
  | _ => simp [incompatible] at hrest

/-- A call of a constructor runs it, with the locals as they are. -/
theorem construct_of_invoke {f g : Frame} {context : ExecutionContext} {kind : InvokeKind} {index : UInt16}
    {method : ResolvedMethod} {u : Unit} (hmethod : context.constants.method index = .ok method)
    (hname : method.name = .init) (h : invoke context kind index f = .ok (u, g)) :
    kind = .special ∧ ∃ f', f'.locals = f.locals ∧ construct context.thisClass f' = .ok (u, g) := by
  obtain ⟨method', f₁, hlift, hrest⟩ := state_bind_eq_ok.mp h
  obtain ⟨_, hok, heq⟩ := state_lift_eq_ok.mp hlift
  obtain ⟨rfl, rfl⟩ := Prod.mk.inj heq
  obtain rfl := Except.ok.inj (hmethod.symm.trans hok)
  obtain ⟨_, f₂, hpop, hrest⟩ := state_bind_eq_ok.mp hrest
  rw [if_pos hname] at hrest
  split at hrest
  · exact absurd hrest (fails_throw_bind _ _ _ _)
  · rename_i hkind
    push Not at hkind
    exact ⟨hkind.1, f₂, locals_effect.popArguments _ _ _ _ hpop, hrest⟩

end Exec

namespace Frame

/-- An operation changes a local that it does not name. -/
inductive Uncharged (f g : Frame) (context : ExecutionContext) (slot : Nat) : Op → Prop
  /-- A store gives up the value of two words that ends in the local it writes to. -/
  | cut {type : LocalType} {index : UInt16} {t : VType} (hindex : index.toNat = slot + 1)
      (hbefore : f.locals[slot]? = some t) (hwide : width t = 2) (hafter : g.locals[slot]? = some .top) :
      Uncharged f g context slot (.store type index)
  /-- A constructor initializes a copy of its object. -/
  | initialized {index : UInt16} {method : ResolvedMethod} {t : VType} {name : BinaryName}
      (hmethod : context.constants.method index = .ok method) (hname : method.name = .init)
      (hbefore : f.locals[slot]? = some t) (huninit : t.isUninitialized = true)
      (hafter : g.locals[slot]? = some (.ofClass name)) : Uncharged f g context slot (.invoke .special index)

/-- The locals that are changed and not named are those of the two cases. -/
theorem uncharged_iff {f g : Frame} {op : Op} {context : ExecutionContext} {u : Unit} {slot : Nat}
    (hwhole : Exec.Paired f.locals) (h : op.run context f = .ok (u, g)) (hchanged : g.locals[slot]? ≠ f.locals[slot]?) :
    f.Uncharged g context slot op ↔ slot ∉ op.slots := by
  constructor
  · intro huncharged
    cases huncharged with
    | @cut type index _ hindex =>
      obtain ⟨t, hslots, -, -⟩ := Exec.locals_store h
      rw [hslots, List.mem_range'_1]
      omega
    | initialized => simp [Op.slots]
  · intro hslot
    by_cases hstore : ∃ type index, op = .store type index
    · obtain ⟨type, index, rfl⟩ := hstore
      obtain ⟨t, hslots, -, hlocals⟩ := Exec.locals_store h
      rw [hlocals] at hchanged
      rcases hwhole.changed_assigned hchanged with hmem | ⟨hindex, htop, w, hbefore, hwide⟩
      · exact absurd (hslots ▸ hmem) hslot
      · exact .cut hindex hbefore hwide (hlocals ▸ htop)
    · by_cases hinvoke : ∃ kind index method, op = .invoke kind index ∧ context.constants.method index = .ok method ∧
        method.name = .init
      · obtain ⟨kind, index, method, rfl, hmethod, hname⟩ := hinvoke
        obtain ⟨rfl, f', hsame, hconstruct⟩ := Exec.construct_of_invoke hmethod hname h
        obtain ⟨old, name, hold, hlocals⟩ := Exec.locals_construct hconstruct
        rw [hlocals, hsame, List.getElem?_map] at hchanged
        -- only a copy of the object is changed
        cases hbefore : f.locals[slot]? with
        | none => simp [hbefore] at hchanged
        | some t =>
          have hcopy : t = old := by
            by_contra hne
            simp [hbefore, hne] at hchanged
          have hobject : g.locals[slot]? = some (.ofClass name) := by
            rw [hlocals, hsame, List.getElem?_map, hbefore, Option.map_some, if_pos hcopy]
          exact .initialized hmethod hname hbefore (hcopy ▸ hold) hobject
      · -- everything else leaves the locals alone
        refine absurd ?_ hchanged
        have hlocals : g.locals = f.locals := by
          push Not at hstore hinvoke
          cases op with
          | invoke kind index =>
            exact Exec.locals_effect.invoke (fun method hmethod => hinvoke kind index method rfl hmethod) f u g h
          | _ => exact Exec.locals_effect.run context hstore (by simp) f u g h
        rw [hlocals]

end Frame

/-- **Changed locals that are charged.**  Let an operation go through with a frame of whole values whose active
subroutines are all registered, and let it change the type of a local.  An active subroutine then has this local noted
as accessed, unless it is cut off by a store or initialized by a constructor and was not noted before. -/
theorem changed_local_charged_iff {f g : Frame} {op : Op} {context : ExecutionContext} {r r' : Registry} {slot : Nat}
    (hwhole : Exec.Paired f.locals) (hsized : r.Sized f.locals.length) (hknown : f.nesting.Known r)
    (hexecute : f.execute op context r = (r', .ok g)) (hchanged : g.locals[slot]? ≠ f.locals[slot]?) :
    slot < f.locals.length ∧
      ∀ entry ∈ f.nesting, r'.Marks entry slot ↔ r.Marks entry slot ∨ ¬ f.Uncharged g context slot op := by
  have hafter : f.after op context = .ok g := by
    rw [← Frame.execute_snd f op context r, hexecute]
  obtain ⟨⟨u, hrun⟩, -⟩ := Frame.after_eq_ok.mp hafter
  have hlt : slot < f.locals.length := by
    by_contra hge
    have hlength : g.locals.length = f.locals.length := (Frame.after_effect Exec.sameShape_effect hafter).1
    rw [List.getElem?_eq_none (by omega), List.getElem?_eq_none (by omega)] at hchanged
    exact hchanged rfl
  refine ⟨hlt, ?_⟩
  intro entry hactive
  have hcharged : r' = r.charge f.nesting op.slots := by
    rw [← Frame.execute_fst hafter r, hexecute]
  rw [hcharged, (Registry.adds_charge hsized hknown op.slots).marks, Frame.uncharged_iff hwhole hrun hchanged]
  simp [hlt, hactive]

namespace Frame

/-- In a subroutine: a value of two words in the locals, and a new object in the third one and on the stack. -/
def longAndObject : Frame := ⟨[.long, .top, .uninitialized 3 .object], [.int, .uninitialized 3 .object], [10]⟩

/-- What is known of its one subroutine. -/
def longAndObjectRegistry : Registry := (Registry.empty 3).register 10

/-- Constants that stand for the constructor of an object. -/
def constructorContext : ExecutionContext :=
  ⟨20, 2, .object, none,
    { ConstantPool.empty.resolver with method := fun _ => .ok ⟨.object .object, .init, ⟨[.base .int], none⟩⟩ }⟩

end Frame

open Bytecode.Frame in
/-- Storing a number over the second word of the value changes both its locals, and the constructor call the third one;
the subroutine has neither the first nor the third local noted. -/
theorem changed_local_uncharged :
    (Exec.Paired longAndObject.locals ∧ longAndObjectRegistry.Sized 3 ∧ longAndObject.nesting.Known longAndObjectRegistry) ∧
    (longAndObject.execute (.store (.numeric .int) 1) constructorContext longAndObjectRegistry =
        (longAndObjectRegistry.charge [10] [1],
          .ok ⟨[.top, .int, .uninitialized 3 .object], [.uninitialized 3 .object], [10]⟩) ∧
      ¬ (longAndObjectRegistry.charge [10] [1]).Marks 10 0) ∧
    longAndObject.execute (.invoke .special 1) constructorContext longAndObjectRegistry =
        (longAndObjectRegistry.charge [10] [], .ok ⟨[.long, .top, .ofClass .object], [], [10]⟩) ∧
      ¬ (longAndObjectRegistry.charge [10] []).Marks 10 2 := by
  have hwhole : Exec.Paired longAndObject.locals := paired_normalized longAndObject.locals
  have hempty : (Registry.empty 3).Sized 3 := ⟨rfl, by simp [Registry.empty, Registry.get?]⟩
  have hsized : longAndObjectRegistry.Sized 3 := (Registry.adds_register hempty 10).sized
  have hknown : longAndObject.nesting.Known longAndObjectRegistry := by
    intro entry hentry
    obtain rfl := List.mem_singleton.mp hentry
    rfl
  have hfresh : ∀ slot, ¬ longAndObjectRegistry.Marks 10 slot := by
    rintro slot ⟨sub, hsub, hslot⟩
    obtain rfl := Option.some.inj hsub
    simp [Subroutine.fresh] at hslot
  have hactive : 10 ∈ longAndObject.nesting := List.mem_singleton.mpr rfl
  have hcut : longAndObject.execute (.store (.numeric .int) 1) constructorContext longAndObjectRegistry =
      (longAndObjectRegistry.charge [10] [1],
        .ok ⟨[.top, .int, .uninitialized 3 .object], [.uninitialized 3 .object], [10]⟩) := rfl
  have hconstructed : longAndObject.execute (.invoke .special 1) constructorContext longAndObjectRegistry =
      (longAndObjectRegistry.charge [10] [], .ok ⟨[.long, .top, .ofClass .object], [], [10]⟩) := rfl
  refine ⟨⟨hwhole, hsized, hknown⟩, ⟨hcut, fun hmarks => ?_⟩, hconstructed, fun hmarks => ?_⟩
  · rcases ((changed_local_charged_iff hwhole hsized hknown hcut (by decide)).2 10 hactive).mp hmarks with hold | hcharged
    · exact hfresh 0 hold
    · exact hcharged (.cut rfl rfl rfl rfl)
  · rcases ((changed_local_charged_iff hwhole hsized hknown hconstructed (by decide)).2 10 hactive).mp hmarks with hold | hcharged
    · exact hfresh 2 hold
    · exact hcharged (.initialized rfl rfl rfl rfl rfl)

end Bytecode
