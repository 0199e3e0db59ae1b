import Bytecode.Proofs.Placement
import Bytecode.Proofs.ReturnBindings

/-!
# Stores of return addresses

A return address is stored by an `astore`, which may just as well store a reference.  The analysis notes the ones that
store a return address while it goes along, and the copies of those are left out.  Frames change from look to look, but a
return address on the stack stays one: the only other type that takes it in is `top`, which cannot be stored.

* `Inference.Passes.stored`: what is noted comes from a look that stored a return address;
* `Frame.Below.address_iff`: frames that say more than one from which a store goes through have the same return address;
* `Settled.finds_of_store`: so all looks at a store find what the last one finds, and it is noted if that is an address;
* `elided_stores_return_addresses`: the stores that are left out are those that always found a return address.
-/

namespace Bytecode

/-! ## Stores that are noted -/

namespace Session

variable {setup : Setup} {s t : Session} {i : Instruction} {frame g : Frame}

theorem storesReturnAddress_iff {op : Op} : storesReturnAddress op frame = true ↔
    ∃ slot entry, op = .store .reference slot ∧ frame.stack.head? = some (.returnAddress entry) := by
  unfold storesReturnAddress
  split
  · rename_i slot entry rest hstack
    simp [hstack]
  · rename_i hother
    simp only [Bool.false_eq_true, false_iff, not_exists, not_and]
    rintro slot entry rfl hhead
    obtain ⟨rest, hstack⟩ := List.head?_eq_some_iff.mp hhead
    exact hother slot entry rest rfl hstack

theorem returnTo_returnStores {slot : UInt16} {entry : Nat} {accessed : Nat → Bool} {call : Nat × CallSite}
    (h : returnTo setup i slot entry frame accessed s call = .ok t) : t.returnStores = s.returnStores := by
  obtain ⟨-, caller, registry, -, -, -, hmerge⟩ := returnTo_eq_ok h
  rw [mergeInto_eq hmerge, note_eq]

/-- A look notes its own instruction if that stores a return address, and nothing else. -/
theorem During.returnStores (h : During setup s i frame t g) : t.returnStores = s.returnStores ∨
    ∃ op, i.flow = .plain op ∧ storesReturnAddress op frame = true ∧ t.returnStores = s.returnStores.insert i.position := by
  have hbefore : ∀ {u : Session}, (s.looked setup i frame).mergeHandlers setup i.position frame = .ok u →
      u.returnStores = s.returnStores := by
    intro u hu
    rw [mergeHandlers_eq hu, looked_eq]
  have hnoted : ∀ {u : Session} {op : Op} {g : Frame}, (s.looked setup i frame).mergeHandlers setup i.position frame = .ok u →
      i.flow = .plain op → frame.after op (setup.context i.position) = .ok g → (u.executed setup i op frame).returnStores = s.returnStores ∨
        ∃ op', i.flow = .plain op' ∧ storesReturnAddress op' frame = true ∧
          (u.executed setup i op frame).returnStores = s.returnStores.insert i.position := by
    intro u op g hu hflow hg
    simp only [executed_eq hg, hbefore hu]
    split
    · rename_i hstores
      exact Or.inr ⟨op, hflow, hstores, rfl⟩
    · exact Or.inl rfl
  cases h with
  | handlers _ hfold =>
    rw [foldlM_merge_eq (fun _ _ _ => mergeHandler_eq) hfold, looked_eq]
    exact Or.inl rfl
  | executed hu hflow hg => exact hnoted hu hflow hg
  | stored hu hflow hg _ hfold =>
    rw [foldlM_merge_eq (fun _ _ _ => mergeHandler_eq) hfold]
    exact hnoted hu hflow hg
  | branched hu _ _ hmerge => exact Or.inl (by rw [mergeInto_eq hmerge, ← hbefore hu])
  | selected hu _ _ _ hmerge => exact Or.inl (by rw [mergeIntoAll_eq hmerge, ← hbefore hu])
  | recorded hu _ hrecord => exact Or.inl (by rw [recordCall_eq hrecord, ← hbefore hu])
  | registered hu _ hrecord => exact Or.inl (by rw [Session.registered, recordCall_eq hrecord, ← hbefore hu])
  | entered hu _ hrecord _ hmerge =>
    exact Or.inl (by rw [mergeInto_eq hmerge, Session.registered, recordCall_eq hrecord, ← hbefore hu])
  | called hu _ hjsr => exact Or.inl (by rw [interpretJsr_eq hjsr, ← hbefore hu])
  | kept hu _ => exact Or.inl (by rw [← hbefore hu])
  | @returned u _ _ _ _ _ _ _ _ hu _ _ _ _ _ hfold =>
    refine Or.inl (Eq.trans ?_ (hbefore hu))
    exact foldlM_keeps (P := fun w => w.returnStores = u.returnStores)
      (fun _ _ _ _ hw hstep => (returnTo_returnStores hstep).trans hw) rfl hfold

end Session

/-- What is noted comes from a look that stored a return address. -/
theorem Inference.Passes.stored {setup : Setup} {entry : Frame} {look : Option (Nat × Frame)} {s : Session}
    {position : Nat} (h : Passes setup entry look s) : s.returnStores.contains position = true →
      ∃ index i op frame u, Passes setup entry (some (index, frame)) u ∧ setup.body.get? index = some i ∧
        i.position = position ∧ i.flow = .plain op ∧ Session.storesReturnAddress op frame = true := by
  refine h.noted (P := fun _ stores => stores.contains position = true → _) ?_ ?_
  · intro m n hstored
    simp [PositionSet.contains_empty] at hstored
  · intro index i frame s t next hpasses hi hone ih hstored
    obtain ⟨g, hduring, -⟩ := Session.during_of_interpretOne hone
    rcases hduring.returnStores with hsame | ⟨op, hflow, hstores, hinsert⟩
    · exact ih (hsame ▸ hstored)
    · rw [hinsert, PositionSet.contains_insert] at hstored
      rcases Bool.or_eq_true_iff.mp hstored with hnew | hold
      · exact ⟨index, i, op, frame, s, hpasses, hi, (of_decide_eq_true hnew).1, hflow, hstores⟩
      · exact ih hold

/-! ## What all looks at a store find -/

/-- Every look at an instruction found the return address of a subroutine on top of the stack. -/
def Method.FindsAddress (method : Method) (index entry : Nat) : Prop :=
  ∀ frame s, method.Looks index frame s → frame.stack.head? = some (.returnAddress entry)

/-- Every look at an instruction found a reference on top of the stack, and so no return address. -/
def Method.FindsReference (method : Method) (index : Nat) : Prop :=
  ∀ frame s, method.Looks index frame s → ∃ type, frame.stack.head? = some type ∧ type.isReference = true

theorem VType.isReference_of_le {a b : VType} (h : a ≤ b) (hb : b.isReference = true) : a.isReference = true := by
  cases (h : Le a b) with
  | refl => exact hb
  | top => simp [isReference] at hb
  | null => rfl
  | object => rfl

namespace Frame

variable {f g after : Frame} {slot : UInt16} {context : ExecutionContext}

theorem Below.head?_stack {b : VType} (h : f.Below g) (hb : g.stack.head? = some b) :
    ∃ a, f.stack.head? = some a ∧ a ≤ b := by
  rw [List.head?_eq_getElem?] at hb
  obtain ⟨a, ha, hle, -⟩ := forall₂_getElem? h.stack hb
  exact ⟨a, by rw [List.head?_eq_getElem?, ha], hle⟩

/-- What an `astore` takes off the stack is a reference or a return address. -/
theorem head?_of_store (hafter : g.after (.store .reference slot) context = .ok after) :
    ∃ b, g.stack.head? = some b ∧ (b.isReference = true ∨ ∃ entry, b = .returnAddress entry) := by
  obtain ⟨⟨u, hrun⟩, -⟩ := after_eq_ok.mp hafter
  obtain ⟨b, rest, hstack, hkind, -⟩ := Exec.storeReference_eq_ok.mp hrun
  exact ⟨b, by rw [hstack, List.head?_cons], hkind.imp_right fun haddress => ⟨_, haddress.choose_spec.1⟩⟩

/-- Frames that say more than one from which an `astore` goes through have the return address that it stores. -/
theorem Below.address_iff (h : f.Below g) (hafter : g.after (.store .reference slot) context = .ok after) {entry : Nat} :
    f.stack.head? = some (.returnAddress entry) ↔ g.stack.head? = some (.returnAddress entry) := by
  obtain ⟨b, hb, hkind⟩ := head?_of_store hafter
  obtain ⟨a, ha, hle⟩ := h.head?_stack hb
  rw [ha, hb, Option.some.injEq, Option.some.injEq]
  constructor
  · rintro rfl
    -- only `top` could take the place of a return address, and that cannot be stored
    rcases VType.eq_or_eq_top hle rfl with heq | rfl
    · exact heq
    · simp [VType.isReference] at hkind
  · rintro rfl
    exact VType.eq_of_le_returnAddress hle

end Frame

namespace Settled

variable {method : Method} {v : Verified} {setup : Setup} {s : Session} {index : Nat} {i : Instruction} {slot : UInt16}

/-- A store of a reference or a return address that was looked at goes through with the frame right before it, and is
noted if that has a return address on top. -/
theorem after_of_store {g : Frame} (h : Settled method v setup s) (hi : v.body.get? index = some i)
    (hflow : i.flow = .plain (.store .reference slot)) (hg : v.frameBefore? method index = some g) :
    (∃ after, g.after (.store .reference slot) (setup.context i.position) = .ok after) ∧
      ∀ entry, g.stack.head? = some (.returnAddress entry) → v.returnStores.contains i.position = true := by
  have hhandled := (h.handled hi hg).flow
  unfold Session.FlowHandled at hhandled
  simp only [hflow] at hhandled
  obtain ⟨after, hafter, -, hnoted⟩ := hhandled
  refine ⟨⟨after, hafter⟩, fun entry hhead => ?_⟩
  rw [h.verified]
  exact hnoted (Session.storesReturnAddress_iff.mpr ⟨slot, entry, rfl, hhead⟩)

/-- What is noted is a store, and a look at it found a return address. -/
theorem store_of_returnStores (h : Settled method v setup s) {position : Nat}
    (hstored : v.returnStores.contains position = true) :
    ∃ index i slot entry frame u, v.body.get? index = some i ∧ i.position = position ∧
      i.flow = .plain (.store .reference slot) ∧ method.Looks index frame u ∧
      frame.stack.head? = some (.returnAddress entry) := by
  obtain ⟨start, -, -, hprepare, hanalyse⟩ := h.entered
  rw [h.verified] at hstored
  obtain ⟨index, i, op, frame, u, hpasses, hi, hposition, hflow, hstores⟩ :=
    (Inference.passes_analyse h.prepared hanalyse).stored hstored
  obtain ⟨slot, entry, rfl, hhead⟩ := Session.storesReturnAddress_iff.mp hstores
  rw [← h.body_eq] at hi
  exact ⟨index, i, slot, entry, frame, u, hi, hposition, hflow, ⟨setup, start, hprepare, hpasses⟩, hhead⟩

/-- A store that was looked at is noted and always found the address of one subroutine, or is not noted and always found
a reference. -/
theorem finds_of_store {g : Frame} (h : Settled method v setup s) (hi : v.body.get? index = some i)
    (hflow : i.flow = .plain (.store .reference slot)) (hg : v.frameBefore? method index = some g) :
    (v.returnStores.contains i.position = true ∧ ∃ entry, method.FindsAddress index entry) ∨
      v.returnStores.contains i.position = false ∧ method.FindsReference index := by
  obtain ⟨⟨after, hafter⟩, hnoted⟩ := h.after_of_store hi hflow hg
  -- all looks are compared with the last
  have hbelow : ∀ frame u, method.Looks index frame u → frame.Below g := by
    intro frame u hlook
    obtain ⟨g', hg', hbelow⟩ := h.below_of_looks hlook
    exact Option.some.inj (hg'.symm.trans hg) ▸ hbelow
  cases hstored : v.returnStores.contains i.position with
  | true =>
    obtain ⟨index', i', slot', entry, frame, u, hi', hposition, -, hlook, hhead⟩ := h.store_of_returnStores hstored
    obtain rfl := h.tiles.index_eq hi' hi hposition
    have hlast := ((hbelow frame u hlook).address_iff hafter).mp hhead
    exact Or.inl ⟨rfl, entry, fun frame' u' hlook' => ((hbelow frame' u' hlook').address_iff hafter).mpr hlast⟩
  | false =>
    refine Or.inr ⟨rfl, fun frame u hlook => ?_⟩
    obtain ⟨b, hb, hreference | ⟨entry, rfl⟩⟩ := Frame.head?_of_store hafter
    · obtain ⟨a, ha, hle⟩ := (hbelow frame u hlook).head?_stack hb
      exact ⟨a, ha, VType.isReference_of_le hle hreference⟩
    · simp [hnoted entry hb] at hstored

/-- A copy of an operation is left out if that is a store which always found a return address, and kept otherwise. -/
theorem finds_of_copy (h : Settled method v setup s) {c : Copy} {op : Op} (hcopy : v.IsCopy c)
    (hflow : c.instruction.flow = .plain op) :
    (v.leafDisposition c.instruction = .skip ∧
      ∃ slot entry, op = .store .reference slot ∧ method.FindsAddress c.index entry) ∨
    v.leafDisposition c.instruction = .keep ∧ ∀ slot, op = .store .reference slot → method.FindsReference c.index := by
  -- some subroutines are active at the instruction, so it was looked at
  have hactive := hcopy.active
  rw [h.activeAt?_eq hcopy.get] at hactive
  obtain ⟨g, hg, -⟩ := Option.map_eq_some_iff.mp hactive
  unfold Verified.leafDisposition
  simp only [hflow]
  split
  · rename_i hstored
    obtain ⟨index, i, slot, -, -, -, hi, hposition, hstore, -⟩ := h.store_of_returnStores hstored
    obtain rfl := h.tiles.index_eq hi hcopy.get hposition
    obtain rfl := Option.some.inj (hi.symm.trans hcopy.get)
    obtain ⟨-, entry, hfinds⟩ | ⟨hnot, -⟩ := h.finds_of_store hi hstore hg
    · exact Or.inl ⟨rfl, slot, entry, Flow.plain.inj (hflow.symm.trans hstore), hfinds⟩
    · simp [hnot] at hstored
  · rename_i hnot
    refine Or.inr ⟨rfl, ?_⟩
    rintro slot rfl
    obtain ⟨hstored, -⟩ | ⟨-, hfinds⟩ := h.finds_of_store hcopy.get hflow hg
    · exact absurd hstored hnot
    · exact hfinds

end Settled

/-- **Elided stores are those of return addresses.**  The positions that are noted are those of `astore` instructions that
were looked at.  Every `astore` that was looked at is noted and found the return address of one and the same subroutine at
every look, or is not noted and found a reference at every look.  So the copies that are left out are those of stores that
always found a return address, and no store that is kept ever found one. -/
theorem elided_stores_return_addresses {method : Method} {v : Verified} (hfits : method.code.bytes.length < 2 ^ 64)
    (hverify : method.verify = .ok v) :
    (∀ position, v.returnStores.contains position = true → v.visited.contains position = true ∧
      ∃ index i slot, v.body.get? index = some i ∧ i.position = position ∧ i.flow = .plain (.store .reference slot)) ∧
    (∀ index i slot, v.body.get? index = some i → i.flow = .plain (.store .reference slot) →
      v.visited.contains i.position = true → (∃ frame s, method.Looks index frame s) ∧
        ((v.returnStores.contains i.position = true ∧ ∃ entry, method.FindsAddress index entry) ∨
          v.returnStores.contains i.position = false ∧ method.FindsReference index)) ∧
    ∀ (l : Layout) (k : Nat) (c : Copy) (op : Op), v.layout = .ok l → l.expansion.copies[k]? = some c →
      c.instruction.flow = .plain op →
      (c.disposition = .skip ∧ ∃ slot entry, op = .store .reference slot ∧ method.FindsAddress c.index entry) ∨
        c.disposition = .keep ∧ ∀ slot, op = .store .reference slot → method.FindsReference c.index := by
  obtain ⟨setup, s, h⟩ := Method.settled hfits hverify
  refine ⟨?_, ?_, ?_⟩
  · intro position hstored
    obtain ⟨index, i, slot, entry, frame, u, hi, rfl, hflow, hlook, -⟩ := h.store_of_returnStores hstored
    obtain ⟨g, hg, -⟩ := h.below_of_looks hlook
    exact ⟨(h.visited_iff hi).mpr (Option.isSome_of_eq_some hg), index, i, slot, hi, rfl, hflow⟩
  · intro index i slot hi hflow hvisited
    obtain ⟨g, hg⟩ := Option.isSome_iff_exists.mp ((h.visited_iff hi).mp hvisited)
    obtain ⟨start, hstart, -, hprepare, hanalyse⟩ := h.entered
    obtain ⟨u, hpasses⟩ := h.passes hstart hanalyse hg
    exact ⟨⟨g, u, setup, start, hprepare, hpasses⟩, h.finds_of_store hi hflow hg⟩
  · intro l k c op hlayout hc hflow
    have hlays := Verified.lays_of_layout h.tiles hlayout
    rw [hlays.leaf k c hc (by simp [hflow]) (by simp [hflow])]
    exact h.finds_of_copy (hlays.isCopy k c hc) hflow

/-- A subroutine that is called twice and stores its return address, and then a reference:

    0 aconst_null;  1 astore_1;  2 jsr 9;  5 jsr 9;  8 return;  9 astore_0;  10 aload_1;  11 astore_2;  12 ret 0
-/
def storesOfBothKinds : Method :=
  Method.bare ⟨[], none⟩ 1 3 [0x01, 0x4c, 0xa8, 0x00, 0x07, 0xa8, 0x00, 0x04, 0xb1, 0x4b, 0x2b, 0x4d, 0xa9, 0x00]

/-- The first store of the subroutine is left out of its copies, and the second is kept. -/
theorem storesOfBothKinds_elided :
    ∃ v l address reference c d, storesOfBothKinds.verify = .ok v ∧ v.layout = .ok l ∧
      v.body.get? 5 = some address ∧ v.returnStores.contains address.position = true ∧
      (∃ frame s, storesOfBothKinds.Looks 5 frame s) ∧ (∃ entry, storesOfBothKinds.FindsAddress 5 entry) ∧
      v.body.get? 7 = some reference ∧ v.returnStores.contains reference.position = false ∧
      (∃ frame s, storesOfBothKinds.Looks 7 frame s) ∧ storesOfBothKinds.FindsReference 7 ∧
      l.expansion.copies[3]? = some c ∧ c.index = 5 ∧ c.disposition = .skip ∧
      l.expansion.copies[5]? = some d ∧ d.index = 7 ∧ d.disposition = .keep := by
  obtain ⟨v, l, hverify, hlayout, htest⟩ := @Method.exists_layout_of_within storesOfBothKinds 20
    (fun v l => (v.body.get? 5).any (fun i => i.flow = .plain (.store .reference 0) &&
        v.visited.contains i.position && v.returnStores.contains i.position) &&
      (v.body.get? 7).any (fun i => i.flow = .plain (.store .reference 2) && v.visited.contains i.position &&
        !v.returnStores.contains i.position) &&
      (l.expansion.copies[3]?).any (fun c => c.index = 5 && c.instruction.flow = .plain (.store .reference 0) &&
        c.disposition ≠ .keep) &&
      (l.expansion.copies[5]?).any (fun c => c.index = 7 && c.instruction.flow = .plain (.store .reference 2) &&
        c.disposition ≠ .skip)) (by decide +kernel)
  simp only [Bool.and_eq_true, Option.any_eq_true, decide_eq_true_eq, Bool.not_eq_true'] at htest
  obtain ⟨⟨⟨⟨address, haddress, ⟨hflow, hvisited⟩, hstored⟩, reference, hreference, ⟨hflow', hvisited'⟩, hnot⟩,
    c, hc, ⟨hindex, hplain⟩, hdropped⟩, d, hd, ⟨hindex', hplain'⟩, hkept⟩ := htest
  obtain ⟨-, hstores, hcopies⟩ := elided_stores_return_addresses (by decide) hverify
  obtain ⟨hlook, hfinds⟩ := hstores 5 address 0 haddress hflow hvisited
  obtain ⟨hlook', hfinds'⟩ := hstores 7 reference 2 hreference hflow' hvisited'
  have hskip := ((hcopies l 3 c _ hlayout hc hplain).resolve_right fun h => hdropped h.1).1
  have hkeep := ((hcopies l 5 d _ hlayout hd hplain').resolve_left fun h => hkept h.1).1
  refine ⟨v, l, address, reference, c, d, hverify, hlayout, haddress, hstored, hlook, ?_, hreference, hnot, hlook', ?_, hc,
    hindex, hskip, hd, hindex', hkeep⟩
  · exact (hfinds.resolve_right fun h => by simp [hstored] at h).2
  · exact (hfinds'.resolve_left fun h => by simp [hnot] at h).2

end Bytecode
