import Bytecode.Proofs.Transfers

/-!
# How inlining can fail

In the new code every jump, call and return has to find a copy of the place that it leads to, in its own call or in one
around it.  That place has been looked at, with the subroutines of the call active or fewer.  There is a copy in a call
around exactly if they are the outermost ones of the call; verification does not see to that, so the copy can be missing.

* `Verified.Demands`: the copies that an instruction asks for, in every call that it runs in;
* `Verified.Lacks`: a copy that is asked for is not there;
* `Instruction.relocated_eq_error`, `Verified.Lays.emitCopy_eq_error`: why a copy cannot be written;
* `inline_outcome`: inlining goes through, or the new code is too large for its jumps or for a method, or a copy is
  lacking;
* `mixedDepths`: a subroutine that is called at two depths, where a copy is lacking.
-/

namespace Bytecode

/-! ## Copies that are asked for -/

namespace Verified

/-- An instruction that runs in a call asks for a copy of a position in another call, or in one around that: for the
places that it names, for the entry of the subroutine that it calls, and for the place behind the `jsr` that made the call
that it leaves. -/
inductive Demands (v : Verified) (method : Method) (call : Call) (index : Nat) (i : Instruction) : Nat → Call → Prop
  | target {p : Nat} (hjump : ∀ entry, i.flow ≠ .jsr entry) (hp : p ∈ i.targets) : Demands v method call index i p call
  | entry {entry : Nat} (hflow : i.flow = .jsr entry) :
      Demands v method call index i entry (call.child entry i.position)
  | behind {slot : UInt16} {entry : Nat} {left parent : Call} {jsr : Instruction}
      (hleaves : v.Leaves method call index slot entry left parent jsr) : Demands v method call index i jsr.next parent

/-- A copy of a position is asked for in a call `source`.  At the position fewer subroutines are active than in the call,
and they are not the outermost ones of it. -/
def Lacks (v : Verified) (method : Method) (position : Nat) : Prop :=
  ∃ call index i source target j nesting, v.IsCall call ∧ v.body.get? index = some i ∧
    v.activeAt? index = some call.nesting ∧ v.Demands method call index i position source ∧
    v.body.get? target = some j ∧ j.position = position ∧ v.activeAt? target = some nesting ∧
    nesting.length < source.nesting.length ∧ ¬ nesting <+: source.nesting

end Verified

/-- The copies of a method before its returns are found. -/
theorem Expansion.listsCopies_ofCopies (v : Verified) (codeLength : Nat) :
    (Expansion.ofCopies codeLength v.copies).ListsCopies v := by
  have hget : ∀ k : Nat, (Expansion.ofCopies codeLength v.copies).copies[k]? = v.copies[k]? := by
    intro k
    simp [Expansion.ofCopies]
  constructor
  · intro k c hc
    rw [hget] at hc
    exact (Verified.isCopy_of_mem .root (List.mem_of_getElem? hc)).1
  · intro call index i hcall hi hactive
    obtain ⟨c, hmem, hindex, hinstruction, hcopied⟩ := Verified.exists_copy hcall hi hactive
    obtain ⟨k, hk⟩ := List.mem_iff_getElem?.mp hmem
    exact ⟨k, c, by rw [hget, hk], hindex, hinstruction, hcopied⟩

namespace Settled

variable {method : Method} {v : Verified} {setup : Setup} {s : Session} {call source : Call} {index p : Nat}
  {i : Instruction}

/-- A place that a copy is asked for of has been looked at, with the subroutines of the call active or fewer. -/
theorem reached_of_demands (h : Settled method v setup s) (hcall : v.IsCall call) (hi : v.body.get? index = some i)
    (hactive : v.activeAt? index = some call.nesting) (hdemands : v.Demands method call index i p source) :
    v.IsCall source ∧ ∃ target j nesting, v.body.get? target = some j ∧ j.position = p ∧
      v.activeAt? target = some nesting ∧ source.nesting.Within nesting := by
  have hbefore := hactive
  rw [h.activeAt?_eq hi] at hbefore
  obtain ⟨frame, hframe, hnesting⟩ := Option.map_eq_some_iff.mp hbefore
  have hflow := (h.handled hi hframe).flow
  unfold Session.FlowHandled at hflow
  -- what is delivered to the place has the subroutines of the call
  suffices hdelivered : v.IsCall source ∧ ∃ after, s.Delivered p after ∧ source.nesting.Within after.nesting by
    obtain ⟨hsource, after, hafter, hwithin⟩ := hdelivered
    obtain ⟨target, j, nesting, hj, hposition, htarget, hbelow⟩ := h.active_of_delivered hafter
    exact ⟨hsource, target, j, nesting, hj, hposition, htarget, hwithin.trans hbelow⟩
  cases hdemands with
  | target hjump hp =>
    refine ⟨hcall, ?_⟩
    rw [← hnesting]
    cases hcase : i.flow with
    | plain op => simp [Instruction.targets, hcase] at hp
    | branch kind target =>
      simp only [hcase] at hflow
      obtain ⟨after, hafter, hdelivered⟩ := hflow
      obtain rfl : p = target := by simpa [Instruction.targets, hcase] using hp
      refine ⟨after, hdelivered, ?_⟩
      rw [(Frame.executeBranch_effect Exec.sameShape_effect hafter).2]
      exact .refl _
    | select default cases =>
      simp only [hcase] at hflow
      obtain ⟨after, hafter, hdelivered⟩ := hflow
      refine ⟨after, hdelivered p (by simpa [Instruction.targets, hcase] using hp), ?_⟩
      rw [(Frame.executeSelect_effect Exec.sameShape_effect hafter).2]
      exact .refl _
    | jsr entry => exact absurd hcase (hjump entry)
    | ret slot => simp [Instruction.targets, hcase] at hp
  | entry hcase =>
    refine ⟨.child hcall hi hactive hcase, ?_⟩
    simp only [hcase] at hflow
    obtain ⟨start, hstart, hdelivered⟩ := hflow.start
    refine ⟨start, hdelivered, Or.inl ?_⟩
    rw [(Session.startFrame_eq_ok hstart).2.2.1, hnesting]
    simp [Call.nesting, Call.child]
  | behind hleaves => exact ⟨hleaves.isCall, h.delivered_of_leaves hleaves⟩

/-- A copy that is asked for and not reached is lacking. -/
theorem lacks_of_not_reached (h : Settled method v setup s) (hcall : v.IsCall call) (hi : v.body.get? index = some i)
    (hactive : v.activeAt? index = some call.nesting) (hdemands : v.Demands method call index i p source)
    {e : Expansion} (he : e.ListsCopies v) (hnone : ¬ ∃ number, e.Reaches p source number) : v.Lacks method p := by
  obtain ⟨hsource, target, j, nesting, hj, rfl, htarget, hwithin⟩ := h.reached_of_demands hcall hi hactive hdemands
  rw [he.reaches_iff h.tiles hsource hj htarget] at hnone
  refine ⟨call, index, i, source, target, j, nesting, hcall, hi, hactive, hdemands, hj, rfl, htarget, ?_, hnone⟩
  rcases hwithin with rfl | hshorter
  · exact absurd (List.prefix_refl _) hnone
  · exact hshorter

/-- Where every copy that is asked for is reached, nothing is lacking. -/
theorem not_lacks (h : Settled method v setup s) {e : Expansion} (he : e.ListsCopies v)
    (hreached : ∀ call index i p source, v.IsCall call → v.body.get? index = some i →
      v.activeAt? index = some call.nesting → v.Demands method call index i p source →
      ∃ number, e.Reaches p source number) : ¬ ∃ p, v.Lacks method p := by
  rintro ⟨p, call, index, i, source, target, j, nesting, hcall, hi, hactive, hdemands, hj, rfl, htarget, -, hnot⟩
  obtain ⟨hsource, -⟩ := h.reached_of_demands hcall hi hactive hdemands
  apply hnot
  rw [← he.reaches_iff h.tiles hsource hj htarget]
  exact hreached call index i _ source hcall hi hactive hdemands

end Settled

/-! ## Copies that cannot be written -/

namespace Instruction

/-- A distance that two bytes cannot hold has an end far from the start of the code. -/
theorem shortOffset_eq_error {source target : Nat} {e : VerifyError} (hsource : source < 2 ^ 63) (htarget : target < 2 ^ 63)
    (h : shortOffset source target = .error e) : e = .located source .offsetOverflow ∧ 0x8000 ≤ max source target := by
  unfold shortOffset distance at h
  rw [Word.signed_sub_of_lt htarget hsource] at h
  dsimp only at h
  split at h
  · simp at h
  · exact ⟨(Except.error.inj h).symm, by omega⟩

theorem longOffset_eq_error {source target : Nat} {e : VerifyError} (hsource : source < 2 ^ 63) (htarget : target < 2 ^ 63)
    (h : longOffset source target = .error e) : e = .located source .offsetOverflow ∧ 0x8000 ≤ max source target := by
  unfold longOffset distance at h
  rw [Word.signed_sub_of_lt htarget hsource] at h
  dsimp only at h
  split at h
  · simp at h
  · exact ⟨(Except.error.inj h).symm, by omega⟩

theorem ofExcept_eq_error {α : Type} {x : Except VerifyError α} {e : VerifyError} :
    (MonadExcept.ofExcept x : Except VerifyError α) = .error e ↔ x = .error e := by
  cases x with
  | error e' => simp [MonadExcept.ofExcept, throw, throwThe, MonadExceptOf.throw]
  | ok b => simp [MonadExcept.ofExcept]

/-- Moving to a position fails because a target has no place, or because its place is too far away. -/
def Misplaces (position : Nat) (place : Nat → Except VerifyError Nat) (targets : List Nat) (e : VerifyError) : Prop :=
  ∃ t ∈ targets, place t = .error e ∨
    ∃ u, place t = .ok u ∧ e = .located position .offsetOverflow ∧ 0x8000 ≤ max position u

section Relocation

variable {position : Nat} {place : Nat → Except VerifyError Nat} {e : VerifyError}

theorem switchDistance_eq_error {target : Nat} (hposition : position < 2 ^ 63)
    (hplace : ∀ t u, place t = .ok u → u < 2 ^ 63) (h : switchDistance place position target = .error e) :
    Misplaces position place [target] e := by
  unfold switchDistance at h
  refine ⟨target, List.mem_singleton.mpr rfl, ?_⟩
  rcases bind_eq_error.mp h with hnone | ⟨u, hu, hfar⟩
  · exact Or.inl hnone
  · exact Or.inr ⟨u, hu, longOffset_eq_error hposition (hplace _ _ hu) (ofExcept_eq_error.mp hfar)⟩

theorem relocatedCases_eq_error {cases : Cases} (hposition : position < 2 ^ 63)
    (hplace : ∀ t u, place t = .ok u → u < 2 ^ 63) (h : relocatedCases place position cases = .error e) :
    Misplaces position place cases.targets e := by
  have hone : ∀ target, target ∈ cases.targets → switchDistance place position target = .error e →
      Misplaces position place cases.targets e := by
    intro target hmem herror
    obtain ⟨t, ht, hblame⟩ := switchDistance_eq_error hposition hplace herror
    obtain rfl := List.mem_singleton.mp ht
    exact ⟨t, hmem, hblame⟩
  cases cases with
  | table low targets =>
    rcases bind_eq_error.mp h with herror | ⟨distances, -, herror⟩
    · obtain ⟨target, hmem, herror⟩ := exists_of_mapM_error herror
      exact hone target hmem herror
    · simp at herror
  | lookup pairs =>
    rcases bind_eq_error.mp h with herror | ⟨entries, -, herror⟩
    · obtain ⟨⟨key, target⟩, hmem, herror⟩ := exists_of_mapM_error herror
      rcases bind_eq_error.mp herror with herror | ⟨d, -, herror⟩
      · exact hone target (List.mem_map.mpr ⟨_, hmem, rfl⟩) herror
      · simp at herror
    · simp at herror

/-- A branch or switch cannot be moved because of one of its targets. -/
theorem relocated_eq_error {i : Instruction} (hposition : position < 2 ^ 63)
    (hplace : ∀ t u, place t = .ok u → u < 2 ^ 63)
    (hflow : (∃ kind target, i.flow = .branch kind target) ∨ ∃ default cases, i.flow = .select default cases)
    (h : i.relocated position place = .error e) : Misplaces position place i.targets e := by
  unfold relocated at h
  rcases hflow with ⟨kind, target, hcase⟩ | ⟨default, cases, hcase⟩
  · simp only [hcase] at h
    refine ⟨target, by simp [Instruction.targets, hcase], ?_⟩
    rcases bind_eq_error.mp h with hnone | ⟨u, hu, h⟩
    · exact Or.inl hnone
    · refine Or.inr ⟨u, hu, ?_⟩
      split at h
      · rcases bind_eq_error.mp h with hfar | ⟨d, -, herror⟩
        · exact longOffset_eq_error hposition (hplace _ _ hu) (ofExcept_eq_error.mp hfar)
        · simp at herror
      · rcases bind_eq_error.mp h with hfar | ⟨d, -, herror⟩
        · exact shortOffset_eq_error hposition (hplace _ _ hu) (ofExcept_eq_error.mp hfar)
        · simp at herror
  · simp only [hcase] at h
    have htargets : i.targets = default :: cases.targets := by simp [Instruction.targets, hcase]
    rw [htargets]
    rcases bind_eq_error.mp h with herror | ⟨d, -, h⟩
    · obtain ⟨t, ht, hblame⟩ := switchDistance_eq_error hposition hplace herror
      exact ⟨t, List.mem_cons.mpr (Or.inl (List.mem_singleton.mp ht)), hblame⟩
    · rcases bind_eq_error.mp h with herror | ⟨bytes, -, herror⟩
      · obtain ⟨t, ht, hblame⟩ := relocatedCases_eq_error hposition hplace herror
        exact ⟨t, List.mem_cons_of_mem _ ht, hblame⟩
      · simp at herror

end Relocation

end Instruction

theorem Expansion.resolve_eq_error {e : Expansion} {position : Nat} {source : Call} {error : VerifyError}
    (h : e.resolve position source = .error error) : error = .nowhere (.missingDuplicate position) := by
  unfold resolve at h
  dsimp only at h
  split at h
  · simp at h
  · exact (Except.error.inj h).symm

namespace Layout

variable {l : Layout} {source target : Nat} {e : VerifyError}

theorem goto_eq_error (hsource : source < 2 ^ 63) (htarget : target < 2 ^ 63) (h : goto source target = .error e) :
    e = .located source .offsetOverflow ∧ 0x8000 ≤ max source target := by
  rcases bind_eq_error.mp h with hfar | ⟨d, -, herror⟩
  · exact Instruction.shortOffset_eq_error hsource htarget hfar
  · simp at herror

theorem gotoWide_eq_error (hsource : source < 2 ^ 63) (htarget : target < 2 ^ 63) (h : gotoWide source target = .error e) :
    e = .located source .offsetOverflow ∧ 0x8000 ≤ max source target := by
  rcases bind_eq_error.mp h with hfar | ⟨d, -, herror⟩
  · exact Instruction.longOffset_eq_error hsource htarget hfar
  · simp at herror

/-- A copy cannot be written because the code is too large for its jumps, or because a copy that it asks for is not
found. -/
def Refuses (l : Layout) (v : Verified) (method : Method) (c : Copy) (e : VerifyError) : Prop :=
  e.fault = .offsetOverflow ∧ 0x8000 ≤ l.size ∨
    ∃ p source error, v.Demands method c.call c.index c.instruction p source ∧ e.fault = .missingDuplicate p ∧
      l.expansion.resolve p source = .error error

/-- A jump inside the new code that is too far for its instruction. -/
theorem refuses_of_far {v : Verified} {method : Method} {c : Copy} (hsource : source ≤ l.size) (htarget : target ≤ l.size)
    (hfar : e = .located source .offsetOverflow ∧ 0x8000 ≤ max source target) : l.Refuses v method c e := by
  refine Or.inl ⟨?_, by omega⟩
  rw [hfar.1]
  rfl

end Layout

namespace Verified.Lays

variable {v : Verified} {method : Method} {code : List UInt8} {l : Layout} {number : Nat} {c : Copy} {e : VerifyError}

theorem resolve_eq_error {position : Nat} {source : Call} (h : l.resolve position source = .error e) :
    e.fault = .missingDuplicate position ∧ l.expansion.resolve position source = .error e := by
  have hresolve := map_eq_error.mp h
  refine ⟨?_, hresolve⟩
  rw [Expansion.resolve_eq_error hresolve]
  rfl

/-- A branch or switch that is kept. -/
theorem refuses_of_relocated (h : v.Lays code l) {position : Nat} (hposition : position ≤ l.size)
    (hflow : (∃ kind target, c.instruction.flow = .branch kind target) ∨
      ∃ default cases, c.instruction.flow = .select default cases)
    (herror : (c.instruction.relocated position fun target =>
      (l.resolve target c.call).mapError fun e => .located c.position e.fault) = .error e) : l.Refuses v method c e := by
  have hplace : ∀ t u, ((l.resolve t c.call).mapError fun e => VerifyError.located c.position e.fault) = .ok u →
      u ≤ l.size := by
    intro t u hu
    exact h.resolve_le (mapError_eq_ok.mp hu)
  obtain ⟨t, ht, hnone | ⟨u, hu, hfar⟩⟩ :=
    Instruction.relocated_eq_error (h.lt_word hposition) (fun t u hu => h.lt_word (hplace t u hu)) hflow herror
  · obtain ⟨error, hresolve, rfl⟩ := mapError_eq_error.mp hnone
    obtain ⟨hfault, hmissing⟩ := resolve_eq_error hresolve
    have hjump : ∀ entry, c.instruction.flow ≠ .jsr entry := by
      intro entry hcase
      rcases hflow with ⟨kind, target, hflow⟩ | ⟨default, cases, hflow⟩
      · simp [hcase] at hflow
      · simp [hcase] at hflow
    exact Or.inr ⟨t, c.call, error, .target hjump ht, hfault, hmissing⟩
  · exact Layout.refuses_of_far hposition (hplace t u hu) hfar

/-- Why a copy cannot be written. -/
theorem emitCopy_eq_error (h : v.Lays code l) (hc : l.expansion.copies[number]? = some c)
    (herror : l.emitCopy code.toArray (c, l.startOf number) = .error e) : l.Refuses v method c e := by
  have hposition : l.startOf number ≤ l.size := by
    rw [← h.positionOf_eq hc]
    exact h.positionOf_le number
  unfold Layout.emitCopy at herror
  dsimp only at herror
  cases hcase : c.instruction.flow with
  | plain op =>
    -- a plain instruction is copied as it is, or left out
    have hleaf := h.leaf number c hc (by simp [hcase]) (by simp [hcase])
    unfold leafDisposition at hleaf
    simp only [hcase] at hleaf
    split at hleaf
    · simp [hleaf] at herror
    · simp [hleaf, hcase] at herror
  | branch kind target =>
    have hkeep : c.disposition = .keep := by
      rw [h.leaf number c hc (by simp [hcase]) (by simp [hcase]), leafDisposition, hcase]
    simp only [hkeep, hcase] at herror
    exact h.refuses_of_relocated hposition (Or.inl ⟨kind, target, hcase⟩) herror
  | select default cases =>
    have hkeep : c.disposition = .keep := by
      rw [h.leaf number c hc (by simp [hcase]) (by simp [hcase]), leafDisposition, hcase]
    simp only [hkeep, hcase] at herror
    exact h.refuses_of_relocated hposition (Or.inr ⟨default, cases, hcase⟩) herror
  | jsr entry =>
    rcases h.jsr number c entry hc hcase with hgoto | ⟨hskip, -⟩
    · simp only [hgoto, hcase] at herror
      rcases bind_eq_error.mp herror with hnone | ⟨target, htarget, herror⟩
      · obtain ⟨hfault, hmissing⟩ := resolve_eq_error hnone
        exact Or.inr ⟨entry, _, e, .entry hcase, hfault, hmissing⟩
      · have hle := h.resolve_le htarget
        split at herror
        · exact Layout.refuses_of_far hposition hle (Layout.gotoWide_eq_error (h.lt_word hposition) (h.lt_word hle) herror)
        · exact Layout.refuses_of_far hposition hle (Layout.goto_eq_error (h.lt_word hposition) (h.lt_word hle) herror)
    · simp [hskip] at herror
  | ret slot =>
    -- where a `ret` goes has been found before
    obtain ⟨target, -, hdisposition⟩ := h.ret number c slot hc hcase
    split at hdisposition
    · simp [hdisposition] at herror
    · simp only [hdisposition] at herror
      have hle := h.positionOf_le target
      exact Layout.refuses_of_far hposition hle (Layout.goto_eq_error (h.lt_word hposition) (h.lt_word hle) herror)

end Verified.Lays

/-! ## All of inlining -/

namespace Settled

variable {method : Method} {v : Verified} {setup : Setup} {s : Session} {call source : Call} {index p : Nat}
  {i : Instruction}

/-- A copy that is asked for and not found is lacking. -/
theorem lacks_of_resolve (h : Settled method v setup s) {e : Expansion} (he : e.ListsCopies v)
    (hindexed : e.Indexed method.code.bytes.length) (hcall : v.IsCall call) (hi : v.body.get? index = some i)
    (hactive : v.activeAt? index = some call.nesting) (hdemands : v.Demands method call index i p source)
    {error : VerifyError} (herror : e.resolve p source = .error error) : v.Lacks method p := by
  apply h.lacks_of_not_reached hcall hi hactive hdemands he
  intro hreached
  obtain ⟨-, target, j, -, hj, rfl, -⟩ := h.reached_of_demands hcall hi hactive hdemands
  obtain ⟨number, hnumber⟩ := (Expansion.resolve_spec hindexed (h.tiles.position_lt_length hj)).2 hreached
  rw [hnumber] at herror
  simp at herror

/-- The place that a `ret` goes on with is not found because the copy is lacking. -/
theorem lacks_of_bindReturns (h : Settled method v setup s) {e : VerifyError}
    (herror : (Expansion.ofCopies v.body.codeLength v.copies).bindReturns v = .error e) :
    ∃ p, e.fault = .missingDuplicate p ∧ v.Lacks method p := by
  rcases bind_eq_error.mp herror with herror | ⟨copies, -, herror⟩
  · obtain ⟨⟨c, k⟩, hmem, herror⟩ := exists_of_mapM_error herror
    have hc : c ∈ v.copies := by simpa [Expansion.ofCopies] using List.fst_mem_of_mem_zipIdx hmem
    have hcopy := (Verified.isCopy_of_mem .root hc).1
    unfold Expansion.bindReturn at herror
    dsimp only at herror
    split at herror
    · rename_i slot hflow
      rcases bind_eq_error.mp herror with herror | ⟨target, -, herror⟩
      · obtain ⟨entry, left, parent, jsr, hleaves⟩ := h.leaves hcopy hflow
        rw [hleaves.returnTarget_eq h.tiles hcopy] at herror
        have hindexed : (Expansion.ofCopies v.body.codeLength v.copies).Indexed method.code.bytes.length := by
          rw [h.tiles.codeLength_eq]
          exact Expansion.indexed_ofCopies _ _
        refine ⟨jsr.next, ?_, h.lacks_of_resolve (Expansion.listsCopies_ofCopies v _) hindexed hcopy.call hcopy.get
          hcopy.active (.behind hleaves) herror⟩
        rw [Expansion.resolve_eq_error herror]
        rfl
      · simp at herror
    · simp at herror
  · simp at herror

/-- In new code that is written, every copy that is asked for is reached. -/
theorem reaches_of_emits (h : Settled method v setup s) {l : Layout} {bytes : List UInt8}
    (hlays : v.Lays method.code.bytes l) (hemits : l.Emits bytes) (hcall : v.IsCall call)
    (hi : v.body.get? index = some i) (hactive : v.activeAt? index = some call.nesting)
    (hdemands : v.Demands method call index i p source) : ∃ number, l.expansion.Reaches p source number := by
  obtain ⟨k, c, hc, rfl, rfl, rfl⟩ := hlays.complete call index i hcall hi hactive
  cases hdemands with
  | target hjump hp =>
    have hflow : (∃ kind target, c.instruction.flow = .branch kind target) ∨
        ∃ default cases, c.instruction.flow = .select default cases := by
      cases hcase : c.instruction.flow with
      | branch kind target => exact Or.inl ⟨kind, target, rfl⟩
      | select default cases => exact Or.inr ⟨default, cases, rfl⟩
      | jsr entry => exact absurd hcase (hjump entry)
      | plain op => simp [Instruction.targets, hcase] at hp
      | ret slot => simp [Instruction.targets, hcase] at hp
    obtain ⟨-, i', -, -, hmoved⟩ := hlays.keepsTargets hemits hc hflow
    obtain ⟨n, hn⟩ := List.mem_iff_getElem?.mp hp
    obtain ⟨u, -, target, htarget, -⟩ := forall₂_getElem? hmoved.forall₂_targets.flip hn
    exact ⟨target, htarget.1⟩
  | entry hflow =>
    obtain ⟨callee, target, rfl, htarget, -⟩ := hlays.keepsCall hemits hc hflow
    exact ⟨target, htarget.1⟩
  | behind hleaves =>
    obtain ⟨i', popped, hi', hflow, -⟩ := hleaves.popped
    obtain rfl := Option.some.inj (hi.symm.trans hi')
    obtain ⟨-, target, j, -, hj, hposition, -⟩ := h.reached_of_demands hcall hi hactive (.behind hleaves)
    obtain ⟨number, hnumber, -⟩ := hlays.ret k c _ hc hflow
    rw [hleaves.returnTarget_eq h.tiles (hlays.isCopy k c hc)] at hnumber
    rw [← hposition] at hnumber ⊢
    exact ⟨number, (hlays.resolve_eq_ok_iff (h.tiles.position_lt_length hj)).mp hnumber⟩

end Settled

/-- The tables of positions among the attributes of a body can be read. -/
def Code.TablesDecode (code : Code) (pool : ConstantPool) : Prop :=
  ∀ a ∈ code.attributes,
    (a.isNamed (attributeName LineNumberTable) pool = true → ∃ table, a.decode LineNumberTable = .ok table) ∧
    (a.isNamed (attributeName LocalVariableTable) pool = true → ∃ table, a.decode LocalVariableTable = .ok table) ∧
    (a.isNamed (attributeName LocalVariableTypeTable) pool = true → ∃ table, a.decode LocalVariableTypeTable = .ok table)

theorem Layout.attributes_eq_ok (l : Layout) {code : Code} {pool : ConstantPool} (h : code.TablesDecode pool) :
    ∃ new, l.attributes pool code.attributes = .ok new := by
  unfold attributes
  refine Exists.elim (exists_mapM_iff.mpr ?_) fun parts hparts => ⟨parts.flatten, map_eq_ok.mpr ⟨parts, hparts, rfl⟩⟩
  intro a ha
  obtain ⟨hlines, hvariables, htypes⟩ := h a ha
  split_ifs with hline hvariable htype
  · obtain ⟨table, htable⟩ := hlines hline
    exact ⟨_, bind_eq_ok.mpr ⟨table, htable, rfl⟩⟩
  · obtain ⟨table, htable⟩ := hvariables hvariable
    exact ⟨_, bind_eq_ok.mpr ⟨table, htable, rfl⟩⟩
  · obtain ⟨table, htable⟩ := htypes htype
    exact ⟨_, bind_eq_ok.mpr ⟨table, htable, rfl⟩⟩
  · exact ⟨_, rfl⟩
  · exact ⟨_, rfl⟩

/-- Is the attribute one of the tables that name positions? -/
def Attribute.isPositionTable (a : Attribute) (pool : ConstantPool) : Bool :=
  a.isNamed (attributeName LineNumberTable) pool || a.isNamed (attributeName LocalVariableTable) pool ||
    a.isNamed (attributeName LocalVariableTypeTable) pool

theorem Attribute.isNamed_unique {a : Attribute} {pool : ConstantPool} {name other : String}
    (h : a.isNamed name pool = true) (hother : name ≠ other) : a.isNamed other pool = false := by
  unfold isNamed at h ⊢
  split at h
  · simp_all
  · simp at h

/-- Stack maps are dropped.  All other attributes stay in order under their names, and as they are unless they name
positions. -/
theorem Layout.attributes_spec {l : Layout} {pool : ConstantPool} {old new : List Attribute}
    (h : l.attributes pool old = .ok new) :
    List.Forall₂ (fun a a' => a'.nameIndex = a.nameIndex ∧ (a.isPositionTable pool = false → a' = a))
      (old.filter fun a => !a.isNamed Code.stackMapTable pool) new := by
  obtain ⟨parts, hparts, rfl⟩ := map_eq_ok.mp h
  replace hparts := mapM_eq_ok.mp hparts
  clear h
  induction hparts with
  | nil => exact .nil
  | @cons a part old parts hpart _ ih =>
    -- a table of positions keeps its name
    have htable : ∀ {info : List UInt8} {name : String}, a.isNamed name pool = true → name ≠ Code.stackMapTable →
        a.isPositionTable pool = true → List.Forall₂
          (fun a a' => a'.nameIndex = a.nameIndex ∧ (a.isPositionTable pool = false → a' = a))
          ((a :: old).filter fun a => !a.isNamed Code.stackMapTable pool)
          ([{ a with info }] :: parts).flatten := by
      intro info name hname hother htable
      rw [List.filter_cons_of_pos (by simp [Attribute.isNamed_unique hname hother])]
      refine .cons ⟨rfl, ?_⟩ ih
      rw [htable]
      simp
    split_ifs at hpart with hline hvariable htype hmap
    · obtain ⟨_, -, hpart⟩ := bind_eq_ok.mp hpart
      obtain rfl := pure_eq_ok.mp hpart
      exact htable hline (by decide) (by simp [Attribute.isPositionTable, hline])
    · obtain ⟨_, -, hpart⟩ := bind_eq_ok.mp hpart
      obtain rfl := pure_eq_ok.mp hpart
      exact htable hvariable (by decide) (by simp [Attribute.isPositionTable, hvariable])
    · obtain ⟨_, -, hpart⟩ := bind_eq_ok.mp hpart
      obtain rfl := pure_eq_ok.mp hpart
      exact htable htype (by decide) (by simp [Attribute.isPositionTable, htype])
    · obtain rfl := Except.ok.inj hpart
      rw [List.filter_cons_of_neg (by simp [hmap])]
      exact ih
    · obtain rfl := Except.ok.inj hpart
      rw [List.filter_cons_of_pos (by simpa using hmap)]
      exact .cons ⟨rfl, fun _ => rfl⟩ ih

/-- What the new code of a method is made from. -/
theorem Verified.inline_eq (v : Verified) (code : Code) (pool : ConstantPool) :
    v.inline code pool = match v.layout with
      | .error e => .error (.verify e)
      | .ok l => l.code code pool := by
  unfold inline inlineTraced
  split <;> simp_all

theorem Verified.attributes_of_inline {v : Verified} {code new : Code} {pool : ConstantPool}
    (h : v.inline code pool = .ok new) :
    List.Forall₂ (fun a a' => a'.nameIndex = a.nameIndex ∧ (a.isPositionTable pool = false → a' = a))
      (code.attributes.filter fun a => !a.isNamed Code.stackMapTable pool) new.attributes := by
  rw [Verified.inline_eq] at h
  split at h
  · simp at h
  · obtain ⟨_, -, h⟩ := bind_eq_ok.mp h
    obtain ⟨attributes, hattributes, h⟩ := bind_eq_ok.mp h
    obtain rfl := pure_eq_ok.mp h
    exact Layout.attributes_spec (mapError_eq_ok.mp hattributes)

/-- Laying out the copies fails because they are too many bytes. -/
theorem Layout.ofExpansion_eq_error {expansion : Expansion} {e : VerifyError} (h : ofExpansion expansion = .error e) :
    ∃ size, e.fault = .codeTooLarge size ∧ 65535 < size := by
  unfold ofExpansion at h
  dsimp only at h
  split at h
  · rename_i hsize
    obtain rfl := Except.error.inj h
    exact ⟨_, rfl, hsize⟩
  · simp at h

/-- The new code is not written because of one of the copies. -/
theorem Verified.Lays.emit_eq_error {v : Verified} {method : Method} {code : List UInt8} {l : Layout} {e : VerifyError}
    (h : v.Lays code l) (herror : l.emit code = .error e) :
    ∃ (number : Nat) (c : Copy), l.expansion.copies[number]? = some c ∧ l.Refuses v method c e := by
  rcases bind_eq_error.mp herror with herror | ⟨pieces, -, herror⟩
  · obtain ⟨⟨c, position⟩, hmem, herror⟩ := exists_of_mapM_error herror
    obtain ⟨number, hnumber⟩ := List.mem_iff_getElem?.mp hmem
    have hc : l.expansion.copies[number]? = some c := by
      unfold Layout.toList at hnumber
      rw [List.getElem?_zip_eq_some] at hnumber
      simpa using hnumber.1
    rw [h.getElem?_toList hc] at hnumber
    obtain ⟨-, rfl⟩ := Prod.mk.inj (Option.some.inj hnumber)
    exact ⟨number, c, hc, h.emitCopy_eq_error hc herror⟩
  · simp at herror

/-- **How inlining ends.**  If the tables of positions of an accepted method can be read, its subroutines are inlined and no
copy is lacking; or the new code is too large, for a method or for the jumps in it; or a copy is lacking. -/
theorem inline_outcome {method : Method} {v : Verified} {pool : ConstantPool}
    (hfits : method.code.bytes.length < 2 ^ 64) (hverify : method.verify = .ok v)
    (htables : method.code.TablesDecode pool) :
    ((∃ out, v.inline method.code pool = .ok out) ∧ ¬ ∃ p, v.Lacks method p) ∨
      ∃ e, v.inline method.code pool = .error (.verify e) ∧
        ((∃ size, e.fault = .codeTooLarge size ∧ 65535 < size) ∨
          (∃ l, v.layout = .ok l ∧ e.fault = .offsetOverflow ∧ 0x8000 ≤ l.size) ∨
          ∃ p, e.fault = .missingDuplicate p ∧ v.Lacks method p) := by
  obtain ⟨setup, s, h⟩ := Method.settled hfits hverify
  rw [Verified.inline_eq]
  cases hlayout : v.layout with
  | error e =>
    refine Or.inr ⟨e, rfl, ?_⟩
    unfold Verified.layout at hlayout
    rcases bind_eq_error.mp hlayout with hreturns | ⟨expansion, -, hsize⟩
    · exact Or.inr (Or.inr (h.lacks_of_bindReturns hreturns))
    · exact Or.inl (Layout.ofExpansion_eq_error hsize)
  | ok l =>
    have hlays := Verified.lays_of_layout h.tiles hlayout
    dsimp only
    cases hemit : l.emit method.code.bytes with
    | error e =>
      refine Or.inr ⟨e, by simp [Layout.code, hemit, Except.mapError, bind, Except.bind], Or.inr ?_⟩
      obtain ⟨number, c, hc, hfar | ⟨p, source, error, hdemands, hfault, hresolve⟩⟩ := hlays.emit_eq_error hemit
      · exact Or.inl ⟨l, rfl, hfar⟩
      · have hcopy := hlays.isCopy number c hc
        exact Or.inr ⟨p, hfault, h.lacks_of_resolve hlays.listsCopies hlays.indexed hcopy.call hcopy.get hcopy.active
          hdemands hresolve⟩
    | ok bytes =>
      obtain ⟨attributes, hattributes⟩ := l.attributes_eq_ok htables
      refine Or.inl ⟨⟨_, by
        simp only [Layout.code, hemit, hattributes, Except.mapError, bind, Except.bind]
        rfl⟩, ?_⟩
      have hemits := hlays.emits_of_emit hemit
      exact h.not_lacks hlays.listsCopies fun _ _ _ _ _ => h.reaches_of_emits hlays hemits

/-- A body with a subroutine that is called from outside of all subroutines and from another one:

    0 jsr 13;  3 jsr 7;  6 return;  7 astore_0;  8 jsr 13;  11 ret 0;  13 astore_1;  14 iconst_0;  15 istore_2;  16 ret 1
-/
def mixedDepths : Method := .bare ⟨[], none⟩ 2 3
  [0xa8, 0x00, 0x0d, 0xa8, 0x00, 0x04, 0xb1, 0x4b, 0xa8, 0x00, 0x05, 0xa9, 0x00, 0x4c, 0x03, 0x3d, 0xa9, 0x01]

/-- The subroutine at 13 is looked at as called from outside only.  In the call that the `jsr` at 8 makes inside of
subroutine 7 there is no copy of it. -/
theorem mixedDepths_lacks : mixedDepths.code.TablesDecode .empty ∧ ∃ v, mixedDepths.verify = .ok v ∧
    v.inline mixedDepths.code .empty = .error (.verify (.nowhere (.missingDuplicate 13))) ∧ v.Lacks mixedDepths 13 := by
  have htables : mixedDepths.code.TablesDecode .empty := by
    intro a ha
    exact absurd ha (List.not_mem_nil)
  obtain ⟨v, hverify, htest⟩ := @Method.exists_of_within mixedDepths 20
    (fun v => match v.inline mixedDepths.code .empty with
      | .ok _ => false
      | .error failure => failure = .verify (.nowhere (.missingDuplicate 13))) (by decide +kernel)
  refine ⟨htables, v, hverify, ?_⟩
  rcases inline_outcome (by decide) hverify htables with ⟨⟨out, hout⟩, -⟩ | ⟨e, herror, hreason⟩
  · simp [hout] at htest
  · simp only [herror, decide_eq_true_eq, Failure.verify.injEq] at htest
    subst htest
    refine ⟨herror, ?_⟩
    rcases hreason with ⟨size, hsize, -⟩ | ⟨l, -, hfar, -⟩ | ⟨p, hp, hlacks⟩
    · simp [VerifyError.nowhere] at hsize
    · simp [VerifyError.nowhere] at hfar
    · obtain rfl := VerifyFault.missingDuplicate.inj hp
      exact hlacks

end Bytecode
