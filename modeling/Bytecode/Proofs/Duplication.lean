import Bytecode.Proofs.InliningOutcome
import Bytecode.Proofs.NestedCalls

/-!
# Copying ends, with one copy for each call

Copying follows every `jsr` that runs in a call into the call that it makes.  Nothing in this recursion counts levels; it
ends because no call is made of a subroutine that is active, so that the subroutines of a call are distinct.

* `Verified.CopyingEnds`: the recursion without any bound, as a relation that says how deep it goes;
* `Verified.CopyingEnds.copiesIn_eq`: counting enough levels gives what the recursion gives;
* `Settled.distinct_of_isCall`: the subroutines of a call are distinct and registered;
* `copied_once_per_call`: the recursion ends, and there is one copy of every instruction in every call that it belongs to.
-/

namespace Bytecode

namespace Verified

variable {v : Verified} {levels : Nat} {call callee : Call} {copies : List Copy}

/-! ## The recursion -/

/-- The copies of the code in a call, if those in the calls that it makes are given. -/
def copiesWith (v : Verified) (bodies : Call → List Copy) (call : Call) : List Copy :=
  (v.instructionsIn call).flatMap fun entry =>
    match entry.1.flow with
    | .jsr target =>
      let callee := call.child target entry.1.position
      ⟨entry.2, entry.1, call, v.jsrDisposition entry.1.position target callee (bodies callee)⟩ :: bodies callee
    | _ => [⟨entry.2, entry.1, call, v.leafDisposition entry.1⟩]

/-- A `jsr` that runs in a call makes another. -/
def Makes (v : Verified) (call callee : Call) : Prop :=
  ∃ i index target, (i, index) ∈ v.instructionsIn call ∧ i.flow = .jsr target ∧ callee = call.child target i.position

/-- Copying the code in a call ends with these copies, in a recursion that is at most so many levels deep. -/
inductive CopyingEnds (v : Verified) : Nat → Call → List Copy → Prop
  | intro {levels : Nat} {call : Call} (bodies : Call → List Copy)
      (h : ∀ callee, v.Makes call callee → CopyingEnds v levels callee (bodies callee)) :
      CopyingEnds v (levels + 1) call (v.copiesWith bodies call)

theorem copiesIn_eq_copiesWith (v : Verified) (levels : Nat) (call : Call) :
    v.copiesIn (levels + 1) call = v.copiesWith (v.copiesIn levels) call :=
  v.copiesIn_succ levels call

/-- Only the copies in the calls that are made matter. -/
theorem copiesWith_congr {bodies bodies' : Call → List Copy}
    (h : ∀ callee, v.Makes call callee → bodies callee = bodies' callee) :
    v.copiesWith bodies call = v.copiesWith bodies' call := by
  unfold copiesWith
  apply List.flatMap_congr
  rintro ⟨i, index⟩ hentry
  dsimp only
  split
  · rename_i target hflow
    rw [h _ ⟨i, index, target, hentry, hflow, rfl⟩]
  · rfl

theorem Makes.isCall (h : v.Makes call callee) (hcall : v.IsCall call) : v.IsCall callee := by
  obtain ⟨i, index, target, hentry, hflow, rfl⟩ := h
  obtain ⟨hi, hactive⟩ := mem_instructionsIn.mp hentry
  exact .child hcall hi hactive hflow

theorem Makes.depth_eq (h : v.Makes call callee) : callee.depth = call.depth + 1 := by
  obtain ⟨i, index, target, -, -, rfl⟩ := h
  simp [Call.depth, Call.child]

/-- Counting levels gives what the recursion gives, as soon as they are enough for it. -/
theorem CopyingEnds.copiesIn_eq (h : v.CopyingEnds levels call copies) {more : Nat} (hmore : levels ≤ more) :
    v.copiesIn more call = copies := by
  induction h generalizing more with
  | @intro levels call bodies _ ih =>
    obtain ⟨more, rfl⟩ : ∃ n, more = n + 1 := ⟨more - 1, by omega⟩
    rw [copiesIn_eq_copiesWith]
    apply copiesWith_congr
    intro callee hmakes
    exact ih callee hmakes (Nat.le_of_succ_le_succ hmore)

/-- If no call is deeper than a bound, copying ends. -/
theorem copyingEnds_of_bounded {bound : Nat} (hbound : ∀ call, v.IsCall call → call.depth ≤ bound) (hcall : v.IsCall call)
    (hlevels : bound < levels + call.depth) : v.CopyingEnds levels call (v.copiesIn levels call) := by
  induction levels generalizing call with
  | zero =>
    have hdepth := hbound call hcall
    omega
  | succ levels ih =>
    rw [copiesIn_eq_copiesWith]
    refine .intro _ fun callee hmakes => ih (hmakes.isCall hcall) ?_
    rw [hmakes.depth_eq]
    omega

/-- No code runs deeper than the subroutines are nested, so counting more levels adds nothing. -/
theorem copiesIn_of_deep (hlevels : v.depth < levels + call.depth) {more : Nat} (hmore : levels ≤ more) :
    v.copiesIn more call = v.copiesIn levels call := by
  induction levels generalizing call more with
  | zero =>
    have hnone : v.instructionsIn call = [] := by
      refine List.eq_nil_iff_forall_not_mem.mpr fun entry hentry => ?_
      have hlength := length_le_depth (mem_instructionsIn.mp hentry).2
      rw [Call.nesting, List.length_map] at hlength
      unfold Call.depth at hlevels
      omega
    cases more with
    | zero => rfl
    | succ more => rw [copiesIn_succ, hnone, List.flatMap_nil, copiesIn]
  | succ levels ih =>
    obtain ⟨more, rfl⟩ : ∃ n, more = n + 1 := ⟨more - 1, by omega⟩
    rw [copiesIn_eq_copiesWith, copiesIn_eq_copiesWith]
    apply copiesWith_congr
    intro callee hmakes
    refine ih ?_ (Nat.le_of_succ_le_succ hmore)
    rw [hmakes.depth_eq]
    omega

/-- The recursion gives all copies of the method, and nothing else. -/
theorem CopyingEnds.eq_copies (h : v.CopyingEnds levels .root copies) : copies = v.copies := by
  have hfew : v.copiesIn (max levels (v.depth + 1)) .root = v.copies :=
    copiesIn_of_deep (by omega) (Nat.le_max_right ..)
  rw [← hfew]
  exact (h.copiesIn_eq (Nat.le_max_left ..)).symm

/-! ## Copies and calls -/

/-- The calls are the body of the method and what the copies of `jsr` instructions make. -/
theorem isCall_iff : v.IsCall call ↔ call = .root ∨
    ∃ c ∈ v.copies, ∃ target, c.instruction.flow = .jsr target ∧ call = c.call.child target c.position := by
  constructor
  · intro hcall
    cases hcall with
    | root => exact Or.inl rfl
    | child hcall hi hactive hflow =>
      obtain ⟨c, hc, -, rfl, rfl⟩ := exists_copy hcall hi hactive
      exact Or.inr ⟨c, hc, _, hflow, rfl⟩
  · rintro (rfl | ⟨c, hc, target, hflow, rfl⟩)
    · exact .root
    · have hcopy := (isCopy_of_mem .root hc).1
      exact .child hcopy.call hcopy.get hcopy.active hflow

/-- An instruction has one copy in a call with the subroutines that are active there, and none in any other. -/
theorem countP_copies {code : List UInt8} (hb : v.body.Tiles code) (hcall : v.IsCall call) {index : Nat} {i : Instruction}
    (hi : v.body.get? index = some i) :
    v.copies.countP (fun c => c.index = index ∧ c.call = call)
      = if v.activeAt? index = some call.nesting then 1 else 0 := by
  split
  · rename_i hactive
    obtain ⟨c, hc, hindex, -, hcopied⟩ := exists_copy hcall hi hactive
    have hnodup : (v.copies.map fun c => (c.index, c.call)).Nodup := nodup_copiesIn hb .root
    have hmem : (index, call) ∈ v.copies.map fun c => (c.index, c.call) :=
      List.mem_map.mpr ⟨c, hc, by rw [hindex, hcopied]⟩
    have hone := List.count_eq_one_of_mem hnodup hmem
    rw [List.count, List.countP_map] at hone
    rw [← hone]
    apply List.countP_congr
    intro c' _
    simp [Prod.ext_iff]
  · rename_i hactive
    rw [List.countP_eq_zero]
    intro c hc
    simp only [decide_eq_true_eq, not_and]
    rintro rfl rfl
    exact hactive (isCopy_of_mem .root hc).1.active

end Verified

/-! ## Subroutines of a call -/

/-- There are no more distinct subroutines active than are registered. -/
theorem Nesting.Known.length_le {r : Registry} {n : Nesting} (h : n.Known r) (hnodup : n.Nodup) : n.length ≤ r.size := by
  have hsubset : n ⊆ r.subroutines.map Subroutine.entry := by
    intro entry hentry
    obtain ⟨sub, hsub⟩ := Option.isSome_iff_exists.mp (h entry hentry)
    exact List.mem_map.mpr ⟨sub, List.mem_of_find?_eq_some hsub, Registry.entry_of_get? hsub⟩
  calc n.length ≤ (r.subroutines.map Subroutine.entry).length := (hnodup.subperm hsubset).length_le
    _ = r.size := by rw [List.length_map, Registry.size]

namespace Settled

variable {method : Method} {v : Verified} {setup : Setup} {s : Session} {call : Call}

/-- The subroutines of a call are distinct and registered. -/
theorem distinct_of_isCall (h : Settled method v setup s) (hcall : v.IsCall call) :
    call.nesting.Nodup ∧ call.nesting.Known v.subroutines := by
  cases hcall with
  | root => exact ⟨List.nodup_nil, by simp [Call.root, Call.nesting, Nesting.Known]⟩
  | @child call index target i hcall hi hactive hflow =>
    have hnesting : (call.child target i.position).nesting = call.nesting ++ [target] := by
      simp [Call.nesting, Call.child]
    have hframe := hactive
    rw [h.activeAt?_eq hi] at hframe
    obtain ⟨frame, hframe, hsame⟩ := Option.map_eq_some_iff.mp hframe
    have hhandled := h.handled hi hframe
    rw [hnesting]
    constructor
    · -- a subroutine that is active cannot be called
      have hentered := hhandled.flow
      unfold Session.FlowHandled at hentered
      simp only [hflow] at hentered
      obtain ⟨start, hstart, -⟩ := hentered.start
      obtain ⟨-, -, -, hinactive, -⟩ := Session.startFrame_eq_ok hstart
      rw [← hsame, ← List.concat_eq_append]
      exact List.Nodup.concat hinactive hhandled.fits.nodup
    · intro entry hentry
      rw [Option.isSome_iff_exists]
      rcases List.mem_append.mp hentry with hactive' | hcalled
      · exact h.registered_of_active hi hactive hactive'
      · rw [List.mem_singleton.mp hcalled]
        exact h.registered_of_call hi hflow hactive

/-- No call is deeper than there are subroutines. -/
theorem depth_le_of_isCall (h : Settled method v setup s) (hcall : v.IsCall call) : call.depth ≤ v.subroutines.size := by
  obtain ⟨hnodup, hknown⟩ := h.distinct_of_isCall hcall
  have hlength := hknown.length_le hnodup
  rwa [Call.nesting, List.length_map] at hlength

/-- Copying ends at a depth that the number of subroutines bounds. -/
theorem copyingEnds (h : Settled method v setup s) : v.CopyingEnds (v.subroutines.size + 1) .root v.copies := by
  have hends := Verified.copyingEnds_of_bounded (fun _ => h.depth_le_of_isCall) .root
    (show v.subroutines.size < v.subroutines.size + 1 + Call.root.depth by omega)
  rwa [hends.eq_copies] at hends

end Settled

/-- **Copying ends, with one copy for each call.**  The recursion into the calls of subroutines ends, at a depth of at
most one more than there are subroutines, and what it gives are the copies of the method.  Calls are the body of the
method and what the copies of `jsr` instructions make; no subroutine occurs twice in one.  In every call, an instruction
has one copy if the subroutines of the call are those that are active at the instruction, and none otherwise.  Of the
copies of a position, at most one lies in a given call or in one around it, and that is the one that resolution finds. -/
theorem copied_once_per_call {method : Method} {v : Verified} (hfits : method.code.bytes.length < 2 ^ 64)
    (hverify : method.verify = .ok v) :
    v.CopyingEnds (v.subroutines.size + 1) .root v.copies ∧
      (∀ levels copies, v.CopyingEnds levels .root copies → copies = v.copies) ∧
      (∀ call, v.IsCall call ↔ call = .root ∨
        ∃ c ∈ v.copies, ∃ target, c.instruction.flow = .jsr target ∧ call = c.call.child target c.position) ∧
      (∀ call, v.IsCall call → call.nesting.Nodup ∧ call.nesting.Known v.subroutines) ∧
      (∀ c ∈ v.copies, v.IsCall c.call ∧ v.body.get? c.index = some c.instruction) ∧
      (∀ call index i, v.IsCall call → v.body.get? index = some i →
        v.copies.countP (fun c => c.index = index ∧ c.call = call)
          = if v.activeAt? index = some call.nesting then 1 else 0) ∧
      ∀ position call number,
        let e := Expansion.ofCopies v.body.codeLength v.copies
        (e.Reaches position call number → e.TheCopy position call number) ∧
          (position < method.code.bytes.length →
            (e.resolve position call = .ok number ↔ e.TheCopy position call number)) := by
  obtain ⟨setup, s, h⟩ := Method.settled hfits hverify
  refine ⟨h.copyingEnds, fun _ _ hends => hends.eq_copies, fun _ => Verified.isCall_iff, fun _ => h.distinct_of_isCall,
    ?_, fun call index i hcall hi => Verified.countP_copies h.tiles hcall hi, ?_⟩
  · intro c hc
    have hcopy := (Verified.isCopy_of_mem .root hc).1
    exact ⟨hcopy.call, hcopy.get⟩
  · intro position call number e
    have hlists : e.ListsCopies v := Expansion.listsCopies_ofCopies v _
    have hget : ∀ k : Nat, e.copies[k]? = v.copies[k]? := by
      intro k
      simp [e, Expansion.ofCopies]
    have hthe : ∀ number, e.Reaches position call number → e.TheCopy position call number := by
      intro number hreaches
      refine ⟨hreaches, fun other hother => hlists.reaches_unique h.tiles ?_ hother hreaches⟩
      intro j k c c' hc hc' hindex hcalls
      rw [hget] at hc hc'
      exact Verified.copies_inj h.tiles hc hc' hindex hcalls
    refine ⟨hthe number, fun hposition => ?_⟩
    obtain ⟨hsound, hfound⟩ := @Expansion.resolve_spec e v.body.codeLength position call
      (Expansion.indexed_ofCopies v.body.codeLength v.copies) (h.tiles.codeLength_eq ▸ hposition)
    refine ⟨fun hresolve => hthe number (hsound number hresolve), fun hcopy => ?_⟩
    obtain ⟨other, hresolve⟩ := hfound ⟨number, hcopy.1⟩
    rwa [hcopy.2 other (hsound other hresolve)] at hresolve

/-- A subroutine that is called twice and calls another:

    0 jsr 7;  3 jsr 7;  6 return;  7 astore_0;  8 jsr 13;  11 ret 0;  13 astore_1;  14 ret 1
-/
def calledTwiceNested : Method :=
  Method.bare ⟨[], none⟩ 1 2 [0xa8, 0x00, 0x07, 0xa8, 0x00, 0x04, 0xb1, 0x4b, 0xa8, 0x00, 0x05, 0xa9, 0x00, 0x4c, 0xa9, 0x01]

/-- The inner subroutine is copied once for each of the two calls around it, and the recursion is as deep as it can be
with two subroutines. -/
theorem calledTwiceNested_copied_once :
    ∃ v, calledTwiceNested.verify = .ok v ∧ v.subroutines.size = 2 ∧ v.copies.length = 13 ∧
      v.CopyingEnds 3 .root v.copies ∧ ¬ v.CopyingEnds 2 .root v.copies ∧
      ∃ call call' i, v.IsCall call ∧ v.IsCall call' ∧ call ≠ call' ∧ v.body.get? 6 = some i ∧
        v.copies.countP (fun c => c.index = 6 ∧ c.call = call) = 1 ∧
        v.copies.countP (fun c => c.index = 6 ∧ c.call = call') = 1 ∧
        v.copies.countP (fun c => c.index = 6 ∧ c.call = .root) = 0 := by
  obtain ⟨v, hverify, htest⟩ := @Method.exists_of_within calledTwiceNested 20
    (fun v => v.subroutines.size = 2 && v.copies.length = 13 && v.copiesIn 2 .root ≠ v.copies && (v.body.get? 6).isSome &&
      v.activeAt? 6 = some [7, 13] && (v.body.get? 0).any (fun i => i.flow = .jsr 7 && i.position = 0) && v.activeAt? 0 = some [] &&
      (v.body.get? 1).any (fun i => i.flow = .jsr 7 && i.position = 3) && v.activeAt? 1 = some [] &&
      (v.body.get? 4).any (fun i => i.flow = .jsr 13) && v.activeAt? 4 = some [7]) (by decide +kernel)
  simp only [Bool.and_eq_true, Option.any_eq_true, decide_eq_true_eq] at htest
  obtain ⟨⟨⟨⟨⟨⟨⟨⟨⟨⟨hsize, hlength⟩, hfew⟩, hi⟩, hactive⟩, first, hfirst, hcall, hat⟩, hroot⟩, second, hsecond, hcall', hat'⟩,
    hroot'⟩, inner, hinner, hflow⟩, houter⟩ := htest
  obtain ⟨i, hi⟩ := Option.isSome_iff_exists.mp hi
  obtain ⟨hends, -, -, -, -, hcount, -⟩ := copied_once_per_call (by decide) hverify
  rw [hsize] at hends
  have hchild := Verified.IsCall.child (.child .root hfirst hroot hcall) hinner houter hflow
  have hchild' := Verified.IsCall.child (.child .root hsecond hroot' hcall') hinner houter hflow
  refine ⟨v, hverify, hsize, hlength, hends, ?_, _, _, i, hchild, hchild', ?_, hi, ?_, ?_, ?_⟩
  · intro hends'
    exact hfew (hends'.copiesIn_eq (Nat.le_refl 2))
  · simp [Call.child, Call.root, hat, hat']
  · exact (hcount _ 6 i hchild hi).trans (if_pos hactive)
  · exact (hcount _ 6 i hchild' hi).trans (if_pos hactive)
  · rw [hcount _ 6 i .root hi, if_neg]
    rw [hactive]
    simp [Call.root, Call.nesting]

end Bytecode
