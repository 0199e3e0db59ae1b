import Bytecode.Proofs.Faults
import Bytecode.Proofs.Worklist

/-!
# Verification does not lose its way

Verification refuses a method for what is wrong with it.  There are faults too for what cannot be: that a place to look
at has no instruction, that a call has no place behind it.  They are never told once the rounds have begun, because the
tables of a session stay in place.

* `Session.interpretOne_failsIn`: a look at an instruction has only ordinary faults, if all is in place before it;
* `Inference.analyse_failsIn`: so has the whole analysis;
* `Session.Consistent`: what fits together at every point of an analysis;
* `verification_consistent`: it does so for every method, and no fault of verification itself is ever told.
-/

namespace Bytecode

open VerifyFault

/-- A refusal tells what is wrong with the method. -/
def Rejection.IsOrdinary (r : Rejection) : Prop := r.error.fault.IsOrdinary

namespace Session

variable {setup : Setup} {code : List UInt8} {s : Session} {index : Nat} {i : Instruction} {frame : Frame}

/-! ## Parts of a look -/

@[simp] theorem reject_failsIn {α : Type} {error : VerifyError} :
    FailsIn Rejection.IsOrdinary (s.reject error : Attempt α) ↔ error.fault.IsOrdinary :=
  failsIn_error

theorem require_failsIn {α : Type} {x : Except VerifyFault α} (h : FailsIn VerifyFault.IsOrdinary x) (position : Nat) :
    FailsIn Rejection.IsOrdinary (s.require setup position x) := by
  unfold require
  split
  · simp
  · exact reject_failsIn.mpr (failsIn_error.mp h)
  · exact reject_failsIn.mpr (failsIn_error.mp h)

/-- The start of an instruction can be merged into. -/
theorem mergeInto_failsIn {position : Nat} (hp : setup.Prepared code) (h : s.Placed setup)
    (hstart : setup.IsStart position) : FailsIn Rejection.IsOrdinary (s.mergeInto setup position frame) := by
  have hlt : position < s.states.bound := by
    rw [h.sized.states]
    exact hstart.lt_codeLength hp
  unfold mergeInto
  split
  · rename_i hnone
    exact absurd (Array.getElem?_eq_none_iff.mp hnone) (Nat.not_le.mpr hlt)
  · simp
  · rename_i state _
    split
    · rename_i fault hmerge
      exact reject_failsIn.mpr (state.merge_failsIn frame fault hmerge)
    · simp
    · simp

theorem mergeHandler_failsIn {handler : Handler} (ha : setup.Anchored code) (h : s.Placed setup)
    (hmem : handler ∈ setup.handlers) : FailsIn Rejection.IsOrdinary (mergeHandler setup frame s handler) := by
  unfold mergeHandler
  dsimp only
  split
  · rename_i e hrequire
    exact failsIn_error.mpr (require_failsIn (Frame.checkHeight_failsIn _ _) _ e hrequire)
  · exact mergeInto_failsIn ha.toPrepared h (ha.handled handler hmem)

theorem mergeHandlers_failsIn {position : Nat} (ha : setup.Anchored code) (h : s.Placed setup) :
    FailsIn Rejection.IsOrdinary (s.mergeHandlers setup position frame) := by
  have hhandler : ∀ {handler : Handler}, (handler ∈ setup.handlers.filter fun h => h.covers position) →
      handler ∈ setup.handlers := fun hmem => (List.mem_filter.mp hmem).1
  refine failsIn_foldlM (I := fun u => u.Placed setup) ?_ ?_ h
  · intro u handler hmem hu
    exact mergeHandler_failsIn ha hu (hhandler hmem)
  · intro u handler hmem hu t hmerge
    exact mergeHandler_placed hu (ha.handled handler (hhandler hmem)) hmerge

theorem mergeIntoAll_failsIn {positions : List Nat} (hp : setup.Prepared code) (h : s.Placed setup)
    (hstarts : ∀ p ∈ positions, setup.IsStart p) :
    FailsIn Rejection.IsOrdinary (s.mergeIntoAll setup positions frame) := by
  refine failsIn_foldlM (I := fun u => u.Placed setup) ?_ ?_ h
  · intro u p hmem hu
    exact mergeInto_failsIn hp hu (hstarts p hmem)
  · intro u p hmem hu t hmerge
    exact mergeInto_placed hu (hstarts p hmem) hmerge

/-- There is room for every call. -/
theorem recordCall_ne_none {entry : Nat} (hp : setup.Prepared code) (h : s.Placed setup)
    (hi : setup.body.get? index = some i) : s.recordCall i.position entry frame ≠ none := by
  have hlt : i.position < s.calls.bound := by
    rw [h.sized.calls]
    exact (Setup.isStart_of_get? hp hi).lt_codeLength hp
  unfold recordCall
  split
  · rename_i hnone
    exact absurd (Array.getElem?_eq_none_iff.mp hnone) (Nat.not_le.mpr hlt)
  · simp
  · dsimp only
    split <;> simp

theorem interpretJsr_failsIn {entry : Nat} (hp : setup.Prepared code) (h : s.Placed setup)
    (hi : setup.body.get? index = some i) (hflow : i.flow = .jsr entry) :
    FailsIn Rejection.IsOrdinary (s.interpretJsr setup i entry frame) := by
  unfold interpretJsr
  split
  · rename_i hnone
    exact absurd hnone (recordCall_ne_none hp h hi)
  · rename_i u isNew isChanged hrecord
    have hu := recordCall_placed hp h hi hflow hrecord
    dsimp only
    split
    · rename_i e hrequire
      exact failsIn_error.mpr (require_failsIn (subroutineEntry_failsIn _ _ _ _) _ e hrequire)
    · rename_i start registry _
      have hentry : setup.IsStart entry := Setup.isStart_of_target hp hi (by simp [Instruction.targets, hflow])
      split
      · rename_i e hmerge
        exact failsIn_error.mpr (mergeInto_failsIn hp (hu.registry registry) hentry e hmerge)
      · split <;> simp

/-- A call that stands at a `jsr` has a place behind it, or the code ends there. -/
theorem returnTo_failsIn {slot : UInt16} {entry : Nat} {call : Nat × CallSite} {accessed : Nat → Bool} {caller : Instruction}
    (hp : setup.Prepared code) (h : s.Placed setup) (hcaller : setup.body.startingAt? call.1 = some caller) :
    FailsIn Rejection.IsOrdinary (returnTo setup i slot entry frame accessed s call) := by
  unfold returnTo
  simp only [hcaller]
  split
  · simp [VerifyError.located]
  · split
    · simp [VerifyError.located]
    · rename_i hnext
      have hstart : setup.IsStart caller.next := by simpa [Setup.IsStart, Option.isSome_iff_ne_none] using hnext
      refine mergeInto_failsIn hp (Placed.note ?_ _) hstart
      exact h.congr { h.sized with jsrRets := (PositionMap.bound_insert ..).trans h.sized.jsrRets } rfl rfl rfl

theorem interpretRet_failsIn {slot : UInt16} (hp : setup.Prepared code) (h : s.Placed setup) :
    FailsIn Rejection.IsOrdinary (s.interpretRet setup i slot frame) := by
  unfold interpretRet
  split
  · simp [VerifyError.located]
  · rename_i entry _
    split
    · rename_i e hrequire
      exact failsIn_error.mpr (require_failsIn (Nesting.leaveThrough_failsIn _ _) _ e hrequire)
    · rename_i popped _ _
      split
      · simp [VerifyError.located]
      · split
        · simp [VerifyError.located]
        · dsimp only
          refine failsIn_foldlM (I := fun u => u.Placed setup) ?_ ?_ ?_
          · rintro u ⟨jsr, site⟩ hmem hu
            have hsite := PositionMap.mem_toList.mp (List.mem_filter.mp hmem).1
            obtain ⟨caller, hcaller, -⟩ := h.calls jsr site hsite
            exact returnTo_failsIn hp hu hcaller
          · intro u call _ hu t hreturn
            exact returnTo_placed hu hreturn
          · refine h.congr ?_ rfl rfl rfl
            exact { h.sized with framesPopped := (PositionMap.bound_insert ..).trans h.sized.framesPopped }
  · simp [VerifyError.located]

theorem interpretPlain_failsIn {op : Op} (ha : setup.Anchored code) (hconstants : setup.method.constants.IsOrdinary)
    (h : s.Placed setup) : FailsIn Rejection.IsOrdinary (s.interpretPlain setup i op frame) := by
  have hs : (s.executed setup i op frame).Placed setup := h.executed i op frame
  unfold interpretPlain
  dsimp only
  split
  · rename_i e hrequire
    exact failsIn_error.mpr (require_failsIn (Frame.execute_failsIn hconstants op frame _) _ e hrequire)
  · rename_i after _
    split
    · split
      · rename_i e hmerge
        exact failsIn_error.mpr (mergeHandlers_failsIn ha hs e hmerge)
      · simp
    · simp

/-! ## Looks -/

/-- A look at an instruction has only ordinary faults, if all is in place before it. -/
theorem interpretOne_failsIn (ha : setup.Anchored code) (hconstants : setup.method.constants.IsOrdinary)
    (h : s.Placed setup) (hi : setup.body.get? index = some i) :
    FailsIn Rejection.IsOrdinary (s.interpretOne setup i frame) := by
  have hp := ha.toPrepared
  have htarget : ∀ {p : Nat}, p ∈ i.targets → setup.IsStart p := Setup.isStart_of_target hp hi
  have hlooked : (s.looked setup i frame).Placed setup := h.looked i frame
  unfold interpretOne
  dsimp only
  split
  · rename_i e hmerge
    exact failsIn_error.mpr (mergeHandlers_failsIn ha hlooked e hmerge)
  · rename_i u hu
    have hu : u.Placed setup := mergeHandlers_placed ha hlooked hu
    cases hflow : i.flow with
    | plain op => exact interpretPlain_failsIn ha hconstants hu
    | branch kind target =>
      dsimp only
      split
      · rename_i e hrequire
        exact failsIn_error.mpr (require_failsIn (Frame.executeBranch_failsIn _ _) _ e hrequire)
      · split
        · rename_i e hmerge
          exact failsIn_error.mpr (mergeInto_failsIn hp hu (htarget (by simp [Instruction.targets, hflow])) e hmerge)
        · simp
    | select default cases =>
      dsimp only
      split
      · rename_i e hrequire
        exact failsIn_error.mpr (require_failsIn (Frame.executeSelect_failsIn _) _ e hrequire)
      · split
        · rename_i e hmerge
          refine failsIn_error.mpr (mergeIntoAll_failsIn hp hu (fun p hmem => htarget ?_) e hmerge)
          simpa only [Instruction.targets, hflow] using hmem
        · simp
    | jsr target =>
      dsimp only
      split
      · rename_i e hjsr
        exact failsIn_error.mpr (interpretJsr_failsIn hp hu hi hflow e hjsr)
      · simp
    | ret slot =>
      dsimp only
      split
      · rename_i e hret
        exact failsIn_error.mpr (interpretRet_failsIn hp (hu.keepRet i frame) e hret)
      · simp

/-- Running through the code has only ordinary faults. -/
theorem interpret_failsIn {origin : Nat} (ha : setup.Anchored code) (hconstants : setup.method.constants.IsOrdinary)
    (h : s.Grounded setup) : FailsIn Rejection.IsOrdinary (interpret setup origin index frame s) := by
  fun_induction interpret setup origin index frame s with
  | case1 => simp [VerifyError.located]
  | case2 index frame s j hj hmerged =>
    exact mergeInto_failsIn ha.toPrepared h.toPlaced (Setup.isStart_of_get? ha.toPrepared hj)
  | case3 index frame s j hj _ e hone =>
    exact failsIn_error.mpr (interpretOne_failsIn ha hconstants h.toPlaced hj e hone)
  | case4 => simp
  | case5 => simp [VerifyError.located]
  | case6 index frame s j hj _ u next hone _ ih => exact ih (interpretOne_grounded ha h hj hone)

/-- A round from the start of an instruction has only ordinary faults. -/
theorem round_failsIn {position : Nat} (ha : setup.Anchored code) (hconstants : setup.method.constants.IsOrdinary)
    (h : s.Grounded setup) (hstart : setup.IsStart position) :
    FailsIn Rejection.IsOrdinary (s.round setup position) := by
  obtain ⟨index, hindex⟩ := Option.isSome_iff_exists.mp hstart
  have hat : ∀ {u : Session} (f : Frame), u.Grounded setup →
      FailsIn Rejection.IsOrdinary (u.interpretAt setup position f) := by
    intro u f hu
    unfold interpretAt
    simp only [hindex]
    exact interpret_failsIn ha hconstants hu
  unfold round
  split
  · exact hat _ ⟨h.insertState hstart _, h.subroutines⟩
  · exact hat _ h
  · simp

end Session

namespace Inference

variable {setup : Setup} {code : List UInt8} {entry : Frame} {s : Session}

theorem run_failsIn (ha : setup.Anchored code) (hconstants : setup.method.constants.IsOrdinary)
    (hpasses : Passes setup entry none s) : FailsIn Rejection.IsOrdinary (s.run setup) := by
  fun_induction Session.run setup s with
  | case1 => simp
  | case2 s position rest hwork e hround =>
    have h := hpasses.grounded ha
    have hstart : setup.IsStart position := h.worklist position (by simp [hwork])
    exact failsIn_error.mpr (Session.round_failsIn ha hconstants ⟨h.pop hwork, h.subroutines⟩ hstart e hround)
  | case3 s position rest hwork t hround ih => exact ih (passes_round ha.toPrepared hpasses hwork hround)

/-- The analysis of a method refuses it for what is wrong with the method only. -/
theorem analyse_failsIn (ha : setup.Anchored code) (hconstants : setup.method.constants.IsOrdinary) :
    FailsIn Rejection.IsOrdinary (analyse setup entry) := by
  refine failsIn_bind.mpr ⟨?_, ?_⟩
  · exact Session.mergeInto_failsIn ha.toPrepared (grounded_start setup).toPlaced ha.entry
  · intro s hs
    exact run_failsIn ha hconstants (.enter hs)

end Inference

/-! ## What fits together -/

namespace Setup

/-- The places that are marked because control can come to them from elsewhere: those that instructions name, those
behind calls, and those of handlers. -/
def MergesAt (setup : Setup) (p : Nat) : Prop :=
  (∃ i ∈ setup.body.toList, p ∈ i.targets ∨ (∃ target, i.flow = .jsr target) ∧ p = i.next) ∨
    ∃ h ∈ setup.handlers, h.target = p

/-- There is room for all marks: only the place behind a call can be at the end of the code, none is beyond it. -/
theorem MergesAt.le_length {setup : Setup} {code : List UInt8} {p : Nat} (h : setup.MergesAt p)
    (ha : setup.Anchored code) : p ≤ code.length := by
  rcases h with ⟨i, hmem, hplace⟩ | ⟨handler, hmem, rfl⟩
  · obtain ⟨index, hi⟩ := Body.mem_toList.mp hmem
    rcases hplace with htarget | ⟨-, rfl⟩
    · exact ((isStart_of_target ha.toPrepared hi htarget).lt_length ha.toPrepared).le
    · exact ha.tiles.next_le hi
  · exact ((ha.handled handler hmem).lt_length ha.toPrepared).le

end Setup

/-- What fits together in a session with a frame in hand: all is in place, every frame has all locals of the method, and
the return addresses in its locals belong to subroutines that are known. -/
structure Session.Consistent (setup : Setup) (s : Session) (hand : Option Frame) : Prop extends s.Grounded setup where
  frames : ∀ f, s.Holds f ∨ hand = some f → f.locals.length = setup.maxLocals ∧
    ∀ entry, .returnAddress entry ∈ f.locals → (s.registry.get? entry).isSome

theorem Inference.Point.consistent {method : Method} {setup : Setup} {entry : Frame} {s : Session} {hand : Option Frame}
    {recording : Bool} (hfits : method.code.bytes.length < 2 ^ 64) (hconstants : method.constants.GivesValues)
    (hprepare : prepare recording method = .ok (setup, entry)) (h : Point setup entry s hand) :
    s.Consistent setup hand := by
  obtain ⟨rfl, -⟩ := prepare_spec hfits hprepare
  obtain ⟨hcaught, hentry⟩ := regular_of_prepare hprepare
  obtain ⟨hregular, hhand⟩ := h.sound hcaught hentry
  refine ⟨h.grounded (anchored_of_prepare hfits hprepare), ?_⟩
  intro f hf
  have hframe : f.Regular setup s.registry := hf.elim (hregular f) (hhand f)
  refine ⟨hframe.length, ?_⟩
  intro callee hmem
  exact hframe.backed hconstants _ (List.mem_append_left _ hmem) callee rfl

/-- **Verification does not lose its way.**  There is room for all marks of merge points.  At every point of the rounds all
places that are to be looked at are starts of instructions in the code, every call that is known stands at its `jsr` with
a frame of the method, and the return address in a local belongs to a known subroutine.  So a method is never refused
because a call has no place behind it, and because of a wrong position only if it names that position itself, before the
first round.  Constants come from a pool, the only source of them that there is.  A call and the frame at it are one entry
of `Session.calls`, so there is no call without a frame that could be refused for the same reason. -/
theorem verification_consistent {method : Method} {pool : ConstantPool} (hfits : method.code.bytes.length < 2 ^ 64)
    (hpool : method.constants = pool.resolver) (recording : Bool) :
    (∀ setup entry, Inference.prepare recording method = .ok (setup, entry) →
      (∀ p, setup.MergesAt p → p ≤ method.code.bytes.length ∧ setup.mergePoints.contains p = true) ∧
      (∀ s hand, Inference.Point setup entry s hand →
        s.Consistent setup hand ∧ ∀ p ∈ s.worklist, p < method.code.bytes.length) ∧
      ∀ first count s,
        (Session.start setup.body.codeLength setup.method.code.maxLocals.toNat).mergeInto setup 0 entry = .ok first →
        first.rounds setup count = .ok s → Inference.Point setup entry s none) ∧
    ∀ e, (Inference.verify recording method).value = .error e → e.fault ≠ .missingContinuation ∧
      ∀ target, e.fault = .invalidTarget target → Inference.prepare recording method = .error e := by
  have hconstants : method.constants.IsOrdinary := hpool ▸ pool.isOrdinary_resolver
  refine ⟨?_, ?_⟩
  · intro setup entry hprepare
    have ha := Inference.anchored_of_prepare hfits hprepare
    refine ⟨?_, ?_, ?_⟩
    · intro p hp
      have hle := hp.le_length ha
      refine ⟨hle, ?_⟩
      rw [← ha.tiles.codeLength_eq] at hle
      obtain ⟨body, handlers, -, -, -, -, rfl⟩ := Inference.prepare_eq_ok.mp hprepare
      exact Inference.contains_mergePoints.mpr ⟨Nat.lt_succ_of_le hle, hp⟩
    · intro s hand hpoint
      have hconsistent := hpoint.consistent hfits (hpool ▸ pool.givesValues_resolver) hprepare
      exact ⟨hconsistent, fun p hp => (hconsistent.worklist p hp).lt_length ha.toPrepared⟩
    · intro first count s hfirst hrounds
      exact .between (Inference.passes_rounds ha.toPrepared (.enter hfirst) hrounds)
  · intro e he
    unfold Inference.verify at he
    dsimp only at he
    split at he
    · rename_i e' hprepare
      obtain rfl := Except.error.inj he
      exact ⟨Inference.prepare_failsIn hfits hconstants recording e' hprepare, fun _ _ => hprepare⟩
    · rename_i setup entry hprepare
      obtain ⟨rfl, -⟩ := Inference.prepare_spec hfits hprepare
      have ha := Inference.anchored_of_prepare hfits hprepare
      split at he
      · rename_i rejection hanalyse
        obtain rfl := Except.error.inj he
        have hordinary : rejection.error.fault.IsOrdinary := Inference.analyse_failsIn ha hconstants rejection hanalyse
        refine ⟨hordinary.isEarly, ?_⟩
        intro target htarget
        simp [htarget] at hordinary
      · simp at he

/-- A method that calls a subroutine at the very end of its code:

    0 goto 6;  3 astore_0;  4 ret 0;  6 jsr 3
-/
def callAtEnd : Method :=
  Method.bare ⟨[], none⟩ 1 1 [0xa7, 0x00, 0x06, 0x4b, 0xa9, 0x00, 0xa8, 0xff, 0xfd]

/-- The place behind the call is marked at the end of the code, the call is known when the subroutine is looked at, and
the method is refused because control would leave the code there. -/
theorem callAtEnd_consistent :
    callAtEnd.code.bytes.length < 2 ^ 64 ∧ callAtEnd.constants = ConstantPool.empty.resolver ∧
      (∃ setup entry s site, Inference.prepare false callAtEnd = .ok (setup, entry) ∧
        setup.mergePoints.contains 9 = true ∧ Inference.Point setup entry s none ∧ s.worklist = [3] ∧
        s.calls.get? 6 = some site ∧ s.Consistent setup none ∧ ∀ p, setup.MergesAt p → p ≤ 9) ∧
      ∃ e, (Inference.verify false callAtEnd).value = .error e ∧ e = .located 6 .fallsOffEnd ∧
        e.fault ≠ .missingContinuation := by
  have hfits : callAtEnd.code.bytes.length < 2 ^ 64 := by decide
  obtain ⟨hruns, hfaults⟩ := @verification_consistent callAtEnd .empty hfits rfl false
  have htest : (Inference.prepare false callAtEnd).toOption.any (fun prepared =>
      prepared.1.mergePoints.contains 9 &&
      ((Session.start prepared.1.body.codeLength prepared.1.method.code.maxLocals.toNat).mergeInto
        prepared.1 0 prepared.2).toOption.any fun first => (first.rounds prepared.1 2).toOption.any fun s =>
          s.worklist = [3] && (s.calls.get? 6).isSome) = true := by
    decide +kernel
  have hrefused : callAtEnd.verify = .error (.located 6 .fallsOffEnd) :=
    @Method.verify_of_refused callAtEnd 3 _ (by decide +kernel)
  simp only [Option.any_eq_true, Bool.and_eq_true, decide_eq_true_eq, toOption_eq_some, Option.isSome_iff_exists] at htest
  obtain ⟨⟨setup, entry⟩, hprepare, hcontains, first, hfirst, s, hrounds, hwork, site, hsite⟩ := htest
  obtain ⟨hmarks, hpoints, hreached⟩ := hruns setup entry hprepare
  have hpoint := hreached first 2 s hfirst hrounds
  exact ⟨hfits, rfl, ⟨setup, entry, s, site, hprepare, hcontains, hpoint, hwork, hsite, (hpoints s none hpoint).1,
    fun p hp => (hmarks p hp).1⟩, _, hrefused, rfl, (hfaults _ hrefused).1⟩

end Bytecode
