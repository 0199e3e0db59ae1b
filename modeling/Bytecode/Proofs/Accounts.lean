import Bytecode.Proofs.RegularSessions

/-!
# Accounts of subroutines

A subroutine is registered when a `jsr` that calls it is looked at, and a `ret` is noted for it when it is looked at with
the address of the subroutine in its local.  Nothing else adds to what is known of returns.

* `Registry.Accounts`: all subroutines, and all `ret` instructions noted for them, are accounted for;
* `Session.During.accounts`: a look keeps this, if it accounts for what it looks at;
* `Inference.Passes.accounts`: so the whole analysis does.
-/

namespace Bytecode

namespace Subroutine

theorem retInstructions_foldl_access (sub : Subroutine) (slots : List Nat) :
    (slots.foldl access sub).retInstructions = sub.retInstructions := by
  induction slots generalizing sub with
  | nil => rfl
  | cons slot slots ih =>
    rw [List.foldl_cons, ih]
    unfold access
    split <;> rfl

theorem nodup_addNew {positions : List Nat} (h : positions.Nodup) (p : Nat) : (addNew positions p).Nodup := by
  unfold addNew
  split
  · exact h
  · rename_i hnew
    rw [List.contains_iff_mem] at hnew
    rw [← List.concat_eq_append]
    exact h.concat hnew

end Subroutine

namespace Registry

/-- Every subroutine is in `E`, and the `ret` instructions noted for it are different ones that `R` allows for it. -/
def Accounts (E : Nat → Prop) (R : Nat → Nat → Prop) (r : Registry) : Prop :=
  ∀ entry sub, r.get? entry = some sub →
    E entry ∧ sub.retInstructions.Nodup ∧ ∀ ret ∈ sub.retInstructions, R entry ret

variable {E : Nat → Prop} {R : Nat → Nat → Prop} {r : Registry} {entry : Nat}

theorem accounts_empty (m : Nat) : (Registry.empty m).Accounts E R := by
  intro entry sub hsub
  simp [Registry.empty, get?] at hsub

theorem Accounts.charge (h : r.Accounts E R) (active slots : List Nat) : (r.charge active slots).Accounts E R := by
  intro entry sub' hsub'
  rw [get?_charge] at hsub'
  obtain ⟨sub, hsub, rfl⟩ := Option.map_eq_some_iff.mp hsub'
  split
  · rw [Subroutine.retInstructions_foldl_access]
    exact h entry sub hsub
  · exact h entry sub hsub

theorem Accounts.register (h : r.Accounts E R) (hentry : E entry) : (r.register entry).Accounts E R := by
  intro other sub hsub
  rw [get?_register] at hsub
  split at hsub
  · rename_i hnew
    obtain rfl := Option.some.inj hsub
    rw [← hnew.2]
    exact ⟨hentry, List.nodup_nil, by simp [Subroutine.fresh]⟩
  · exact h other sub hsub

theorem Accounts.modify {f : Subroutine → Subroutine} (h : r.Accounts E R) (hentry : ∀ sub, (f sub).entry = sub.entry)
    (hf : ∀ sub, r.get? entry = some sub →
      (f sub).retInstructions.Nodup ∧ ∀ ret ∈ (f sub).retInstructions, R entry ret) :
    (r.modify entry f).Accounts E R := by
  intro other sub' hsub'
  rw [get?_modify r hentry] at hsub'
  obtain ⟨sub, hsub, rfl⟩ := Option.map_eq_some_iff.mp hsub'
  split
  · rename_i hself
    obtain rfl : other = entry := (entry_of_get? hsub).symm.trans hself
    exact ⟨(h other sub hsub).1, hf sub hsub⟩
  · exact h other sub hsub

theorem Accounts.addRetTarget (h : r.Accounts E R) (position : Nat) :
    (r.modify entry fun sub => sub.addRetTarget position).Accounts E R :=
  h.modify (fun _ => rfl) fun sub hsub => (h entry sub hsub).2

theorem Accounts.addRetInstruction {position : Nat} (h : r.Accounts E R) (hret : R entry position) :
    (r.modify entry fun sub => sub.addRetInstruction position).Accounts E R := by
  refine h.modify (fun _ => rfl) ?_
  intro sub hsub
  obtain ⟨-, hnodup, hrets⟩ := h entry sub hsub
  refine ⟨Subroutine.nodup_addNew hnodup position, ?_⟩
  intro ret hmem
  rcases Subroutine.mem_addNew.mp hmem with rfl | hold
  · exact hret
  · exact hrets ret hold

end Registry

namespace Session

variable {E : Nat → Prop} {R : Nat → Nat → Prop} {setup : Setup} {s t : Session} {i : Instruction} {frame g : Frame}

/-! ## One look -/

theorem returnTo_accounts {slot : UInt16} {entry : Nat} {call : Nat × CallSite} {accessed : Nat → Bool}
    (h : s.registry.Accounts E R) (hreturn : returnTo setup i slot entry frame accessed s call = .ok t) :
    t.registry.Accounts E R := by
  obtain ⟨jsr, site⟩ := call
  obtain ⟨-, caller, registry, -, -, rfl, hmerge⟩ := returnTo_eq_ok hreturn
  rw [mergeInto_registry hmerge, registry_note]
  exact h.charge _ _

theorem interpretJsr_accounts {entry : Nat} (h : s.registry.Accounts E R) (hentry : E entry)
    (hjsr : s.interpretJsr setup i entry frame = .ok t) : t.registry.Accounts E R := by
  obtain ⟨u, isNew, isChanged, start, registry, w, hrecord, hstart, hmerge, hcases⟩ := interpretJsr_eq_ok hjsr
  obtain ⟨-, rfl⟩ := subroutineEntry_eq_ok hstart
  have hw : w.registry.Accounts E R := by
    rw [mergeInto_registry hmerge, recordCall_eq hrecord]
    exact ((h.register hentry).addRetTarget i.next).charge _ _
  obtain ⟨noted, rets, rfl, -, rfl⟩ | ⟨-, rfl⟩ := hcases
  · rw [enqueueAll_eq, note_eq]
    exact hw
  · exact hw

/-- A look keeps accounts, if it may register what it calls and note what it returns from. -/
theorem During.accounts (h : s.registry.Accounts E R) (hcall : ∀ entry, i.flow = .jsr entry → E entry)
    (hret : ∀ slot entry, i.flow = .ret slot → frame.locals[slot.toNat]? = some (.returnAddress entry) →
      R entry i.position)
    (hduring : During setup s i frame t g) : t.registry.Accounts E R := by
  have hlooked : (s.looked setup i frame).registry = s.registry := registry_note _
  have hbefore : ∀ {u : Session}, (s.looked setup i frame).mergeHandlers setup i.position frame = .ok u →
      u.registry.Accounts E R := by
    intro u hu
    rw [mergeHandlers_eq hu]
    exact hlooked ▸ h
  have hexecuted : ∀ {u : Session} {op : Op} {g : Frame}, u.registry.Accounts E R →
      frame.after op (setup.context i.position) = .ok g → (u.executed setup i op frame).registry.Accounts E R := by
    intro u op g hu hg
    rw [executed_eq hg]
    exact hu.charge _ _
  cases hduring with
  | handlers _ hfold =>
    rw [foldlM_merge_eq (fun _ _ _ => mergeHandler_eq) hfold]
    exact hlooked ▸ h
  | executed hu _ hg => exact hexecuted (hbefore hu) hg
  | stored hu _ hg _ hfold =>
    rw [foldlM_merge_eq (fun _ _ _ => mergeHandler_eq) hfold]
    exact hexecuted (hbefore hu) hg
  | branched hu _ _ hmerge =>
    rw [mergeInto_registry hmerge]
    exact hbefore hu
  | selected hu _ _ _ hmerge =>
    have haccounts := hbefore hu
    rw [mergeIntoAll_eq hmerge]
    exact haccounts
  | recorded hu _ hrecord =>
    have haccounts := hbefore hu
    rw [recordCall_eq hrecord]
    exact haccounts
  | registered hu hflow hrecord =>
    rw [recordCall_eq hrecord]
    exact ((hbefore hu).register (hcall _ hflow)).addRetTarget i.next
  | entered hu hflow hrecord hstart hmerge =>
    obtain ⟨-, rfl⟩ := subroutineEntry_eq_ok hstart
    rw [mergeInto_registry hmerge, recordCall_eq hrecord]
    exact (((hbefore hu).register (hcall _ hflow)).addRetTarget i.next).charge _ _
  | called hu hflow hjsr => exact interpretJsr_accounts (hbefore hu) (hcall _ hflow) hjsr
  | kept hu _ =>
    have haccounts := hbefore hu
    exact haccounts
  | returned hu hflow haddress _ _ _ hfold =>
    refine foldlM_keeps (P := fun u : Session => u.registry.Accounts E R) ?_ ?_ hfold
    · intro u call u' _ hu hreturn
      exact returnTo_accounts hu hreturn
    · exact (hbefore hu).addRetInstruction (hret _ _ hflow haddress)

end Session

namespace Inference

variable {E : Nat → Prop} {R : Nat → Nat → Prop} {setup : Setup} {entry : Frame} {look : Option (Nat × Frame)} {s : Session}

/-- If all looks may register what they call and note what they return from, then these are all that is ever noted. -/
theorem Passes.accounts
    (hcall : ∀ {index i frame u entry'}, Passes setup entry (some (index, frame)) u → setup.body.get? index = some i →
      i.flow = .jsr entry' → E entry')
    (hret : ∀ {index i frame u slot entry'}, Passes setup entry (some (index, frame)) u →
      setup.body.get? index = some i → i.flow = .ret slot →
      frame.locals[slot.toNat]? = some (.returnAddress entry') → R entry' i.position)
    (h : Passes setup entry look s) : s.registry.Accounts E R := by
  refine h.noted (P := fun r _ => r.Accounts E R) (fun m _ => Registry.accounts_empty m) ?_
  intro index i frame s t next hpasses hi hone haccounts
  obtain ⟨g, hduring, -⟩ := Session.during_of_interpretOne hone
  exact hduring.accounts haccounts (fun _ hflow => hcall hpasses hi hflow)
    (fun _ _ hflow haddress => hret hpasses hi hflow haddress)

end Inference

end Bytecode
