import Bytecode.Proofs.Accesses
import Bytecode.Proofs.Closure

/-!
# Execution is monotone

Merging gives up what two frames do not agree on, so code is run with frames that say less than those that come to it.
That is sound because execution respects the order of frames: what goes through with a frame goes through with every
frame below it, and ends below.  There is one exception.  The local that a return address is written to may hold the
return address of another subroutine, which the merged frame has given up.

* `Frame.Precedes`: types are joined into those of the other frame without a change, and the same subroutines are
  active;
* `Frame.Clashes`: the exception;
* `execution_monotone`: for operations, branches and switches.
-/

namespace Bytecode

namespace Frame

/-- The order of frames with the same active subroutines. -/
structure Precedes (f g : Frame) : Prop extends JoinsInto f g where
  nesting : f.nesting = g.nesting

theorem Precedes.below {f g : Frame} (h : f.Precedes g) : f.Below g where
  locals := h.locals.imp fun _ _ hjoin => VType.le_iff_join_eq.mpr hjoin
  nesting := h.nesting ▸ .refl _
  stack := by
    have hwidth : List.Forall₂ (fun t u => width t = width u) f.stack g.stack := by
      have hshape := h.shape
      rw [← List.forall₂_eq_eq_eq, List.forall₂_map_left_iff, List.forall₂_map_right_iff] at hshape
      exact hshape
    refine List.forall₂_iff_zip.mpr ⟨h.stack.length_eq, fun hmem => ⟨?_, (List.forall₂_iff_zip.mp hwidth).2 hmem⟩⟩
    exact VType.le_iff_join_eq.mpr ((List.forall₂_iff_zip.mp h.stack).2 hmem)

theorem Below.precedes {f g : Frame} (h : f.Below g) (hnesting : f.nesting = g.nesting) : f.Precedes g :=
  ⟨h.joinsInto, hnesting⟩

/-- An operation stores a return address where the one of another subroutine is. -/
def Clashes (f : Frame) (op : Op) : Prop :=
  ∃ index entry rest old, op = .store .reference index ∧ f.stack = .returnAddress entry :: rest ∧
    f.locals[index.toNat]? = some (.returnAddress old) ∧ old ≠ entry

theorem storesAlike_or_clashes (f : Frame) (op : Op) : f.StoresAlike op ∨ f.Clashes op := by
  by_cases hclash : f.Clashes op
  · exact Or.inr hclash
  · refine Or.inl fun index entry rest old hop hstack hold => ?_
    by_contra hne
    exact hclash ⟨index, entry, rest, old, hop, hstack, hold, hne⟩

/-- Such a store is refused, and nothing is charged for it. -/
theorem Clashes.execute_eq {f : Frame} {op : Op} (h : f.Clashes op) (context : ExecutionContext) (registry : Registry) :
    f.execute op context registry = (registry, .error .subroutineMerge) := by
  obtain ⟨index, entry, rest, old, rfl, hstack, hold, hne⟩ := h
  have hrun : ((Op.store .reference index).run context).run f =
      ((throw .subroutineMerge : Except VerifyFault PUnit) >>= fun _ =>
        (Exec.setLocal index (.returnAddress entry)).run { f with stack := rest }) := by
    simp [Op.run, Exec.pop, hstack, hold, hne]
  unfold execute
  rw [hrun]
  rfl

end Frame

open Bytecode.Frame

/-- **Execution is monotone.**  What goes through with a frame goes through with every frame below it, is charged in the
same way and ends below, unless a return address is stored over another one; no other failure is possible. -/
theorem execution_monotone {f g : Frame} (hle : f.Precedes g) (hwhole : Exec.Paired f.locals) :
    (∀ op context registry registry' g', g.execute op context registry = (registry', .ok g') →
      (∃ f', f.execute op context registry = (registry', .ok f') ∧ f'.Precedes g' ∧ Exec.Paired f'.locals) ∨
      (f.execute op context registry = (registry, .error .subroutineMerge) ∧ f.Clashes op)) ∧
    (∀ kind g', g.executeBranch kind = .ok g' → ∃ f', f.executeBranch kind = .ok f' ∧ f'.Precedes g' ∧
      Exec.Paired f'.locals) ∧
    ∀ g', g.executeSelect = .ok g' → ∃ f', f.executeSelect = .ok f' ∧ f'.Precedes g' ∧ Exec.Paired f'.locals := by
  have hnesting : ∀ {f' g' : Frame}, Exec.SameShape f f' → Exec.SameShape g g' → f'.nesting = g'.nesting := by
    intro f' g' hf hg
    rw [hf.2, hg.2, hle.nesting]
  refine ⟨?_, ?_, ?_⟩
  · intro op context registry registry' g' hg
    rcases storesAlike_or_clashes f op with hstores | hclash
    · have hafter : g.after op context = .ok g' := by
        rw [← execute_snd g op context registry, hg]
      obtain ⟨f', hafter', hbelow⟩ := after_mono hle.below hwhole hstores hafter
      refine Or.inl ⟨f', ?_, hbelow.precedes ?_, after_effect Exec.paired_effect hafter' hwhole⟩
      · have hcharged : registry' = registry.charge g.nesting op.slots := by
          rw [← execute_fst hafter registry, hg]
        exact Prod.ext ((execute_fst hafter' registry).trans (by rw [hcharged, hle.nesting]))
          ((execute_snd f op context registry).trans hafter')
      · exact hnesting (after_effect Exec.sameShape_effect hafter') (after_effect Exec.sameShape_effect hafter)
    · exact Or.inr ⟨hclash.execute_eq context registry, hclash⟩
  · intro kind g' hg
    obtain ⟨f', hf, hbelow⟩ := executeBranch_mono hle.below hwhole hg
    exact ⟨f', hf, hbelow.precedes (hnesting (executeBranch_effect Exec.sameShape_effect hf)
      (executeBranch_effect Exec.sameShape_effect hg)), executeBranch_effect Exec.paired_effect hf hwhole⟩
  · intro g' hg
    obtain ⟨f', hf, hbelow⟩ := executeSelect_mono hle.below hwhole hg
    exact ⟨f', hf, hbelow.precedes (hnesting (executeSelect_effect Exec.sameShape_effect hf)
      (executeSelect_effect Exec.sameShape_effect hg)), executeSelect_effect Exec.paired_effect hf hwhole⟩

namespace Frame

/-- In a subroutine inside of another one, before its return address is stored: the first local still has the return
address of the outer one, and the second and third a value of two words. -/
def innerCall : Frame := ⟨[.returnAddress 10, .long, .top], [.returnAddress 20], [10, 20]⟩

/-- The same place, once paths have met that do not agree on the locals. -/
def innerCallMerged : Frame := ⟨[.top, .top, .top], [.returnAddress 20], [10, 20]⟩

/-- What the operations at that place may use. -/
def innerCallContext : ExecutionContext := ⟨21, 1, .object, none, ConstantPool.empty.resolver⟩

end Frame

/-- A store into the third local goes through with both frames, and gives up the value of two words that it cuts; a store
into the first one goes through with the merged frame and is refused with the other. -/
theorem execution_monotone_innerCall :
    (innerCall.Precedes innerCallMerged ∧ Exec.Paired innerCall.locals) ∧
    (∃ f', innerCall.execute (.store .reference 2) innerCallContext (.empty 3) = (.empty 3, .ok f') ∧
      f'.Precedes ⟨[.top, .top, .returnAddress 20], [], [10, 20]⟩ ∧ Exec.Paired f'.locals) ∧
    (innerCallMerged.execute (.store .reference 0) innerCallContext (.empty 3)).2.toOption.isSome = true ∧
    innerCall.execute (.store .reference 0) innerCallContext (.empty 3) = (.empty 3, .error .subroutineMerge) := by
  have hle : innerCall.Precedes innerCallMerged :=
    ⟨⟨rfl, .cons rfl .nil, .cons rfl (.cons rfl (.cons rfl .nil))⟩, rfl⟩
  have hwhole : Exec.Paired innerCall.locals := paired_normalized innerCall.locals
  obtain ⟨hexecute, -, -⟩ := execution_monotone hle hwhole
  refine ⟨⟨hle, hwhole⟩, ?_, rfl, ?_⟩
  · refine (hexecute (.store .reference 2) innerCallContext (.empty 3) _ _ rfl).resolve_right ?_
    rintro ⟨herror, -⟩
    exact absurd (congrArg Prod.snd herror) (by decide)
  · refine ((hexecute (.store .reference 0) innerCallContext (.empty 3) _ _ rfl).resolve_left ?_).1
    rintro ⟨f', hok, -⟩
    have herror : (innerCall.execute (.store .reference 0) innerCallContext (.empty 3)).2 = .error .subroutineMerge := rfl
    simp [hok] at herror

end Bytecode
