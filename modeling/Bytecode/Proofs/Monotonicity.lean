import Bytecode.Proofs.Simulation

/-!
# Operations and the order of frames

* `Exec.relates_refines`: types that say more can take the place of types that say less, so operations that go
  through with a frame go through with every frame below it (`Frame.after_mono`);
* `Exec.relates_value`: operations leave values on the stack that can be used, if they find such values there
  (`Frame.HasValues.after`).
-/

namespace Bytecode

variable {f g f' g' : Frame}

namespace Exec

/-! ## Types that say more -/

/-- Where a type is exchanged for another, so is what is above it. -/
theorem swap_le {a c d : VType} (ha : a.isUninitialized = true) (name : BinaryName) (h : c ≤ d) :
    (if c = a then .ofClass name else c) ≤ (if d = a then .ofClass name else d) := by
  by_cases hc : c = a
  · rw [if_pos hc]
    have hinit : c.isInitialized = false := by
      rw [hc]
      cases a <;> simp [VType.isUninitialized, VType.isInitialized] at ha ⊢
    rcases VType.eq_or_eq_top h hinit with rfl | rfl
    · rw [if_pos hc]
    · rw [if_neg]
      · exact VType.le_top _
      · rintro rfl
        simp [VType.isUninitialized] at ha
  · rw [if_neg hc, if_neg]
    · exact h
    · rintro rfl
      exact hc (VType.eq_of_le_of_isUninitialized h ha)

/-- Initializing an object does not change how many words a type takes. -/
theorem width_replace {a : VType} (ha : a.isUninitialized = true) {name : BinaryName} {t : VType} :
    width (if t = a then VType.ofClass name else t) = width t := by
  split
  · rename_i heq
    rw [heq]
    cases a <;> simp [VType.isUninitialized] at ha <;> rfl
  · rfl

/-- Types that say more can take the place of types that say less. -/
theorem relates_refines : Relates VType.Refines (· ≤ ·) where
  width h := h.2
  numeric h := VType.eq_of_le_ofNumeric h.1
  initialized h _ := h.1
  this h := by
    cases h.1 with
    | refl => rfl
  uninitialized h := by
    cases h.1 with
    | refl => exact ⟨_, rfl⟩
  address h := by
    cases h.1 with
    | refl => rfl
  value h hproper := by
    apply VType.refines_of_le h
    rintro rfl
    rcases hproper with hinit | ⟨n, hn⟩
    · simp [VType.isInitialized] at hinit
    · cases n <;> simp [VType.ofNumeric] at hn
  load h hreference := by
    apply VType.refines_of_le h
    rintro rfl
    simp [VType.isReference] at hreference
  loadNumeric := VType.eq_of_le_ofNumeric
  store h := h.1
  top := le_refl _
  clear {a b} h hwide hnarrow := by
    have heq : b = .top := by
      by_contra hne
      have hsame := (VType.refines_of_le h hne).2
      omega
    rw [heq]
  replace {a b} h huninit name c d := by
    obtain rfl : a = b := VType.eq_of_le_of_isUninitialized h.1 huninit
    refine ⟨?_, swap_le huninit name⟩
    intro hcd
    refine ⟨swap_le huninit name hcd.1, ?_⟩
    rw [width_replace huninit, width_replace huninit]
    exact hcd.2

end Exec

namespace VType

/-- Types of values that can stand on the stack of code without subroutines. -/
def IsValue (t : VType) : Prop := t ≠ .top ∧ ∀ entry, t ≠ .returnAddress entry

theorem IsProper.isValue {t : VType} (h : t.IsProper) : t.IsValue := by
  rcases h with hinit | ⟨n, rfl⟩
  · cases t <;> simp [isInitialized, IsValue] at hinit ⊢
  · cases n <;> simp [ofNumeric, IsValue]

theorem IsValue.of_le {a b : VType} (ha : a.IsValue) (h : a ≤ b) (hb : b ≠ .top) : b.IsValue := by
  refine ⟨hb, ?_⟩
  rintro entry rfl
  cases h with
  | refl => exact ha.2 entry rfl

theorem isValue_of_isReference {t : VType} (h : t.isReference = true) : t.IsValue := by
  cases t <;> simp [isReference, IsValue] at h ⊢

end VType

/-- Loading a constant pushes a number or an object whose constructor has run. -/
def Resolver.GivesProper (r : Resolver) : Prop := ∀ index t, r.loadable index = .ok t → t.IsProper

theorem ConstantPool.givesProper_resolver (pool : ConstantPool) : pool.resolver.GivesProper := by
  intro index t h
  change pool.loadable index = .ok t at h
  unfold loadable at h
  cases hconstant : pool.get? index with
  | none => simp [hconstant] at h
  | some constant =>
    rw [hconstant] at h
    cases constant with
    | dynamic bootstrap signature =>
      obtain ⟨_, -, h⟩ := bind_eq_ok.mp h
      obtain ⟨type, -, h⟩ := bind_eq_ok.mp h
      rw [← pure_eq_ok.mp h]
      exact VType.isProper_ofField type
    | integer => exact Except.ok.inj h ▸ Or.inr ⟨.int, rfl⟩
    | float => exact Except.ok.inj h ▸ Or.inr ⟨.float, rfl⟩
    | long => exact Except.ok.inj h ▸ Or.inr ⟨.long, rfl⟩
    | double => exact Except.ok.inj h ▸ Or.inr ⟨.double, rfl⟩
    | string | classInfo | methodHandle | methodType => exact Except.ok.inj h ▸ Or.inl rfl
    | _ => simp at h

/-- Loading a constant pushes a value. -/
def Resolver.GivesValues (r : Resolver) : Prop := ∀ index t, r.loadable index = .ok t → t.IsValue

/-- The constants of a pool stand for values. -/
theorem ConstantPool.givesValues_resolver (pool : ConstantPool) : pool.resolver.GivesValues :=
  fun index t h => (pool.givesProper_resolver index t h).isValue

namespace Exec

/-- Operations leave values on the stack, if they find values there. -/
theorem relates_value : Relates (fun a b => a.Refines b ∧ b.IsValue) (· ≤ ·) where
  width h := relates_refines.width h.1
  numeric h := relates_refines.numeric h.1
  initialized h := relates_refines.initialized h.1
  this h := relates_refines.this h.1
  uninitialized h := relates_refines.uninitialized h.1
  address h := relates_refines.address h.1
  value h hproper := ⟨relates_refines.value h hproper, hproper.isValue⟩
  load h hreference := ⟨relates_refines.load h hreference, VType.isValue_of_isReference hreference⟩
  loadNumeric := relates_refines.loadNumeric
  store h := relates_refines.store h.1
  top := relates_refines.top
  clear := relates_refines.clear
  replace h huninit name c d := by
    have hreplace := relates_refines.replace h.1 huninit name c d
    refine ⟨?_, hreplace.2⟩
    rintro ⟨hcd, hvalue⟩
    refine ⟨hreplace.1 hcd, ?_⟩
    split
    · exact VType.isValue_of_isReference rfl
    · exact hvalue

end Exec

/-! ## Frames that say more -/

namespace Frame

/-- What is above whole values is whole. -/
theorem paired_of_le {locals locals' : List VType} (h : List.Forall₂ (· ≤ ·) locals locals') (hpaired : Exec.Paired locals) :
    Exec.Paired locals' := by
  intro k t' hk hwide
  obtain ⟨t, ht, hle⟩ := forall₂_getElem? h hk
  have hnumeric : t = t' := by
    cases t' with
    | long => exact Exec.relates_refines.loadNumeric (n := .long) hle
    | double => exact Exec.relates_refines.loadNumeric (n := .double) hle
    | _ => simp [width] at hwide
  have htop := hpaired k t ht (hnumeric ▸ hwide)
  have hlt : k + 1 < locals'.length := by
    rw [← h.length_eq]
    exact (List.getElem?_eq_some_iff.mp htop).1
  have hnext := List.getElem?_eq_getElem hlt
  obtain ⟨u, hu, hle'⟩ := forall₂_getElem? h hnext
  obtain rfl := Option.some.inj (htop.symm.trans hu)
  rw [hnext, VType.eq_top_of_top_le hle']

theorem Below.related (h : f.Below f') (hpaired : Exec.Paired f.locals) : f.Related VType.Refines (· ≤ ·) f' :=
  ⟨h.stack, h.locals, hpaired, paired_of_le h.locals hpaired⟩

theorem Below.of_related (h : f.Below f') (hrelated : g.Related VType.Refines (· ≤ ·) g')
    (hg : g.nesting = f.nesting) (hg' : g'.nesting = f'.nesting) : g.Below g' := by
  refine ⟨⟨hrelated.locals, ?_⟩, hrelated.stack⟩
  rw [hg, hg']
  exact h.nesting

theorem height_eq_of_refines (h : List.Forall₂ VType.Refines f.stack g.stack) : f.height = g.height := by
  unfold height
  generalize f.stack = stack at h ⊢
  generalize g.stack = stack' at h ⊢
  induction h with
  | nil => rfl
  | cons hab _ ih => rw [stackHeight_cons, stackHeight_cons, ih, hab.2]

/-- Storing a return address does not overwrite the one of another subroutine. -/
def StoresAlike (f : Frame) (op : Op) : Prop :=
  ∀ index entry rest old, op = .store .reference index → f.stack = .returnAddress entry :: rest →
    f.locals[index.toNat]? = some (.returnAddress old) → old = entry

/-- An operation that goes through goes through with a frame that says more. -/
theorem after_mono {op : Op} {context : ExecutionContext} (h : f.Below f')
    (hpaired : Exec.Paired f.locals) (hstores : f.StoresAlike op) (hafter : f'.after op context = .ok g') :
    ∃ g, f.after op context = .ok g ∧ g.Below g' := by
  obtain ⟨⟨u, hrun⟩, hheight⟩ := after_eq_ok.mp hafter
  obtain ⟨g, hrun', hrelated⟩ := Exec.relates_refines.run (fun _ t _ => .refl t)
    (fun _ _ name => .refl _) hstores (h.related hpaired) hrun
  have hshape := Exec.sameShape_effect.run op context f u g hrun'
  have hshape' := Exec.sameShape_effect.run op context f' u g' hrun
  refine ⟨g, after_eq_ok.mpr ⟨⟨u, hrun'⟩, ?_⟩, h.of_related hrelated hshape.2 hshape'.2⟩
  rw [height_eq_of_refines hrelated.stack]
  exact hheight

theorem executeBranch_mono {kind : BranchKind} (h : f.Below f') (hpaired : Exec.Paired f.locals)
    (hbranch : f'.executeBranch kind = .ok g') : ∃ g, f.executeBranch kind = .ok g ∧ g.Below g' := by
  obtain ⟨g, hbranch', hrelated⟩ := Exec.relates_refines.executeBranch (h.related hpaired) hbranch
  exact ⟨g, hbranch', h.of_related hrelated (executeBranch_effect Exec.sameShape_effect hbranch').2
    (executeBranch_effect Exec.sameShape_effect hbranch).2⟩

theorem executeSelect_mono (h : f.Below f') (hpaired : Exec.Paired f.locals)
    (hselect : f'.executeSelect = .ok g') : ∃ g, f.executeSelect = .ok g ∧ g.Below g' := by
  obtain ⟨g, hselect', hrelated⟩ := Exec.relates_refines.executeSelect (h.related hpaired) hselect
  exact ⟨g, hselect', h.of_related hrelated (executeSelect_effect Exec.sameShape_effect hselect').2
    (executeSelect_effect Exec.sameShape_effect hselect).2⟩

/-- A store that went through did not overwrite the return address of another subroutine. -/
theorem storesAlike_of_after {op : Op} {context : ExecutionContext} (h : f.after op context = .ok g) :
    f.StoresAlike op := by
  rintro index entry rest old rfl hstack hold
  obtain ⟨⟨u, hrun⟩, -⟩ := after_eq_ok.mp h
  obtain ⟨t, rest', hstack', hkind, -⟩ := Exec.storeReference_eq_ok.mp hrun
  obtain ⟨rfl, -⟩ := List.cons.inj (hstack.symm.trans hstack')
  rcases hkind with hreference | ⟨entry', heq, hsame⟩
  · simp [VType.isReference] at hreference
  · rw [VType.returnAddress.inj heq]
    exact hsame old hold

/-! ## Values on the stack -/

/-- Everything on the stack is a value that code without subroutines can use. -/
def HasValues (f : Frame) : Prop := ∀ t ∈ f.stack, t.IsValue

theorem HasValues.storesAlike (h : f.HasValues) (op : Op) : f.StoresAlike op := by
  intro index entry rest old _ hstack
  have hvalue := h (.returnAddress entry) (by rw [hstack]; exact List.mem_cons_self ..)
  exact absurd rfl (hvalue.2 entry)

theorem HasValues.related (h : f.HasValues) (hpaired : Exec.Paired f.locals) :
    f.Related (fun a b => a.Refines b ∧ b.IsValue) (· ≤ ·) f :=
  ⟨List.forall₂_same.mpr fun t ht => ⟨.refl t, h t ht⟩, forall₂_le_refl _, hpaired, hpaired⟩

theorem Related.hasValues {L : VType → VType → Prop}
    (h : f.Related (fun a b => a.Refines b ∧ b.IsValue) L g) : g.HasValues := by
  intro t ht
  obtain ⟨k, hk⟩ := List.mem_iff_getElem?.mp ht
  obtain ⟨_, -, -, hvalue⟩ := forall₂_getElem? h.stack hk
  exact hvalue

theorem HasValues.after {op : Op} {context : ExecutionContext} (h : f.HasValues)
    (hpaired : Exec.Paired f.locals) (hload : context.constants.GivesValues)
    (hafter : f.after op context = .ok g) : g.HasValues := by
  obtain ⟨⟨u, hrun⟩, -⟩ := after_eq_ok.mp hafter
  have hnew : ∀ name, (VType.uninitialized context.position name).Refines (.uninitialized context.position name) ∧
      (VType.uninitialized context.position name).IsValue := fun name => ⟨.refl _, VType.isValue_of_isReference rfl⟩
  obtain ⟨_, -, hrelated⟩ := Exec.relates_value.run (fun index t ht => ⟨.refl t, hload index t ht⟩)
    (fun _ _ => hnew) (h.storesAlike op) (h.related hpaired) hrun
  exact hrelated.hasValues

theorem HasValues.executeBranch {kind : BranchKind} (h : f.HasValues) (hpaired : Exec.Paired f.locals)
    (hbranch : f.executeBranch kind = .ok g) : g.HasValues := by
  obtain ⟨_, -, hrelated⟩ := Exec.relates_value.executeBranch (h.related hpaired) hbranch
  exact hrelated.hasValues

theorem HasValues.executeSelect (h : f.HasValues) (hpaired : Exec.Paired f.locals)
    (hselect : f.executeSelect = .ok g) : g.HasValues := by
  obtain ⟨_, -, hrelated⟩ := Exec.relates_value.executeSelect (h.related hpaired) hselect
  exact hrelated.hasValues

end Frame

end Bytecode
