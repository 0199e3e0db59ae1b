import Bytecode.Proofs.Outcomes
import Bytecode.Proofs.Rounds

/-!
# Recording changes nothing

Inference keeps what happened if it is asked to.  Nothing that it does depends on what was kept, so that a method
gets the same verdict with and without recording.

* `Setup.Alike`, `Session.Alike`: nothing but what is recorded differs;
* `Attempt.Alike`: two attempts end alike, both with a result or both with the same error;
* `Session.interpretOne_alike`, `Session.run_alike`: one look, and all rounds;
* `Inference.value_verify`: the verdict.
-/

namespace Bytecode

/-- Two setups of one method. -/
structure Setup.Alike (setup setup' : Setup) : Prop where
  method : setup'.method = setup.method
  body : setup'.body = setup.body
  handlers : setup'.handlers = setup.handlers
  mergePoints : setup'.mergePoints = setup.mergePoints

theorem Setup.Alike.maxStack {setup setup' : Setup} (h : setup.Alike setup') : setup'.maxStack = setup.maxStack := by
  unfold Setup.maxStack
  rw [h.method]

theorem Setup.Alike.context {setup setup' : Setup} (h : setup.Alike setup') : setup'.context = setup.context := by
  funext position
  unfold Setup.context
  rw [h.method, h.maxStack]

/-- Two sessions that know the same. -/
structure Session.Alike (s t : Session) : Prop where
  states : t.states = s.states
  worklist : t.worklist = s.worklist
  registry : t.registry = s.registry
  calls : t.calls = s.calls
  retFrames : t.retFrames = s.retFrames
  jsrRets : t.jsrRets = s.jsrRets
  framesPopped : t.framesPopped = s.framesPopped
  returnStores : t.returnStores = s.returnStores
  visited : t.visited = s.visited

/-- Two attempts end alike. -/
inductive Attempt.Alike {α : Type} (R : α → α → Prop) : Attempt α → Attempt α → Prop
  | ok {a b : α} (h : R a b) : Alike R (.ok a) (.ok b)
  | error {e e' : Rejection} (h : e'.error = e.error) : Alike R (.error e) (.error e')

namespace Attempt

variable {α β : Type} {R : α → α → Prop} {x y : Attempt α}

/-- Whatever goes on after two attempts can be followed for both at once. -/
@[elab_as_elim]
theorem Alike.elim {motive : Attempt α → Attempt α → Prop} (h : Alike R x y)
    (ok : ∀ a b, R a b → motive (.ok a) (.ok b))
    (error : ∀ e e' : Rejection, e'.error = e.error → motive (.error e) (.error e')) : motive x y := by
  cases h with
  | ok hab => exact ok _ _ hab
  | error he => exact error _ _ he

/-- Folds end alike if their steps do. -/
theorem Alike.foldlM {f g : α → β → Attempt α} {bs : List β} {a a' : α}
    (hstep : ∀ a a' b, R a a' → Alike R (f a b) (g a' b)) (h : R a a') : Alike R (bs.foldlM f a) (bs.foldlM g a') := by
  induction bs generalizing a a' with
  | nil => exact .ok h
  | cons b bs ih =>
    rw [List.foldlM_cons, List.foldlM_cons]
    exact (hstep a a' b h).elim (fun _ _ hnext => ih hnext) (fun _ _ he => .error he)

end Attempt

namespace Session

variable {setup setup' : Setup} {s t : Session} {position : Nat} {frame : Frame} {i : Instruction}

theorem Alike.refl (s : Session) : s.Alike s := ⟨rfl, rfl, rfl, rfl, rfl, rfl, rfl, rfl, rfl⟩

theorem Alike.note (h : s.Alike t) (setup setup' : Setup) (e : Event) : (s.note setup e).Alike (t.note setup' e) := by
  unfold Session.note
  split
  · split
    · exact { h with }
    · exact { h with }
  · split
    · exact { h with }
    · exact h

theorem Alike.enqueue (h : s.Alike t) (position : Nat) : (s.enqueue position).Alike (t.enqueue position) := by
  unfold Session.enqueue
  rw [h.worklist]
  split
  · exact h
  · exact { h with worklist := rfl }

theorem Alike.enqueueAll (h : s.Alike t) (positions : List Nat) : (s.enqueueAll positions).Alike (t.enqueueAll positions) := by
  unfold Session.enqueueAll
  induction positions generalizing s t with
  | nil => exact h
  | cons position positions ih => exact ih (h.enqueue position)

theorem Alike.insertState (h : s.Alike t) (position : Nat) (state : TypeState) :
    { s with states := s.states.insert position state }.Alike { t with states := t.states.insert position state } :=
  { h with states := by rw [h.states] }

theorem Alike.setRegistry (h : s.Alike t) (registry : Registry) : { s with registry }.Alike { t with registry } :=
  { h with registry := rfl }

theorem Alike.popped (h : s.Alike t) (rest : List Nat) : { s with worklist := rest }.Alike { t with worklist := rest } :=
  { h with worklist := rfl }

theorem require_alike {α : Type} (s t : Session) (setup setup' : Setup) (position : Nat) (x : Except VerifyFault α) :
    Attempt.Alike Eq (s.require setup position x) (t.require setup' position x) := by
  cases x with
  | ok a => exact .ok rfl
  | error fault =>
    cases fault with
    | incompatibleArgument expected found => exact .error rfl
    | _ => exact .error rfl

theorem mergeInto_alike (setup setup' : Setup) (h : s.Alike t) (position : Nat) (frame : Frame) :
    Attempt.Alike Alike (s.mergeInto setup position frame) (t.mergeInto setup' position frame) := by
  unfold mergeInto
  rw [h.states]
  split
  · exact .error rfl
  · exact .ok (((h.note _ _ _).insertState _ _).enqueue position)
  · split
    · exact .error rfl
    · exact .ok h
    · exact .ok (((h.note _ _ _).insertState _ _).enqueue position)

theorem mergeHandler_alike (hsetup : setup.Alike setup') (frame : Frame) (handler : Handler) (h : s.Alike t) :
    Attempt.Alike Alike (mergeHandler setup frame s handler) (mergeHandler setup' frame t handler) := by
  unfold mergeHandler
  dsimp only
  rw [hsetup.maxStack]
  refine (require_alike s t setup setup' handler.target (Frame.push _ handler.catchType setup.maxStack)).elim ?_
    (fun _ _ he => .error he)
  rintro caught _ rfl
  exact mergeInto_alike setup setup' h _ _

theorem mergeHandlers_alike (hsetup : setup.Alike setup') (h : s.Alike t) (position : Nat) (frame : Frame) :
    Attempt.Alike Alike (s.mergeHandlers setup position frame) (t.mergeHandlers setup' position frame) := by
  unfold mergeHandlers
  rw [hsetup.handlers]
  exact .foldlM (fun _ _ handler => mergeHandler_alike hsetup frame handler) h

theorem mergeIntoAll_alike (setup setup' : Setup) (h : s.Alike t) (positions : List Nat) (frame : Frame) :
    Attempt.Alike Alike (s.mergeIntoAll setup positions frame) (t.mergeIntoAll setup' positions frame) :=
  .foldlM (fun _ _ position h => mergeInto_alike setup setup' h position frame) h

/-! ## Subroutines -/

theorem recordCall_alike (h : s.Alike t) (position entry : Nat) (frame : Frame) :
    (s.recordCall position entry frame = none ∧ t.recordCall position entry frame = none) ∨
      ∃ u w flags, s.recordCall position entry frame = some (u, flags) ∧
        t.recordCall position entry frame = some (w, flags) ∧ u.Alike w := by
  unfold recordCall
  rw [h.calls]
  split
  · exact Or.inl ⟨rfl, rfl⟩
  · exact Or.inr ⟨_, _, _, rfl, rfl, { h with calls := rfl }⟩
  · dsimp only
    split
    · exact Or.inr ⟨_, _, _, rfl, rfl, h⟩
    · exact Or.inr ⟨_, _, _, rfl, rfl, { h with calls := rfl }⟩

theorem subroutineEntry_congr (hsetup : setup.Alike setup') : subroutineEntry setup' = subroutineEntry setup := by
  funext entry frame registry
  unfold subroutineEntry
  rw [hsetup.maxStack]

theorem interpretJsr_alike (hsetup : setup.Alike setup') (h : s.Alike t) (i : Instruction) (entry : Nat) (frame : Frame) :
    Attempt.Alike Alike (s.interpretJsr setup i entry frame) (t.interpretJsr setup' i entry frame) := by
  unfold interpretJsr
  rcases recordCall_alike h i.position entry frame with ⟨hs, ht⟩ | ⟨u, w, ⟨isNew, isChanged⟩, hs, ht, huw⟩
  · rw [hs, ht]
    exact .error rfl
  · rw [hs, ht]
    dsimp only
    rw [huw.registry, subroutineEntry_congr hsetup]
    refine (require_alike _ _ setup setup' i.position (subroutineEntry setup entry frame _)).elim ?_
      (fun _ _ he => .error he)
    rintro ⟨start, registry⟩ _ rfl
    dsimp only
    refine (mergeInto_alike setup setup' (huw.setRegistry registry) entry start).elim ?_ (fun _ _ he => .error he)
    intro u' w' halike
    dsimp only
    split
    · have hnote := halike.note setup setup' (.callSite i.position entry)
      rw [hnote.registry]
      exact .ok (hnote.enqueueAll _)
    · exact .ok halike

theorem returnTo_alike (hsetup : setup.Alike setup') (i : Instruction) (slot : UInt16) (entry : Nat) (frame : Frame)
    (accessed : Nat → Bool) (call : Nat × CallSite) (h : s.Alike t) :
    Attempt.Alike Alike (returnTo setup i slot entry frame accessed s call)
      (returnTo setup' i slot entry frame accessed t call) := by
  unfold returnTo
  dsimp only
  rw [h.jsrRets, h.registry, hsetup.body]
  split
  · exact .error rfl
  · split
    · exact .error rfl
    · split
      · exact .error rfl
      · refine mergeInto_alike setup setup' (Alike.note ?_ _ _ _) _ _
        exact { h with jsrRets := rfl, registry := rfl }

theorem interpretRet_alike (hsetup : setup.Alike setup') (h : s.Alike t) (i : Instruction) (slot : UInt16) (frame : Frame) :
    Attempt.Alike Alike (s.interpretRet setup i slot frame) (t.interpretRet setup' i slot frame) := by
  unfold interpretRet
  rw [h.framesPopped, h.registry, h.calls]
  split
  · exact .error rfl
  · rename_i entry _
    refine (require_alike s t setup setup' i.position (frame.nesting.leaveThrough entry)).elim ?_ (fun _ _ he => .error he)
    rintro ⟨popped, rest⟩ _ rfl
    dsimp only
    split
    · exact .error rfl
    · split
      · exact .error rfl
      · refine .foldlM (fun _ _ call => returnTo_alike hsetup i slot entry frame _ call) ?_
        exact { h with framesPopped := rfl, registry := rfl, calls := rfl }
  · exact .error rfl

/-! ## Looks -/

/-- Two sessions that know the same, with the same frame for the next instruction. -/
def AlikeOnward (a b : Session × Option Frame) : Prop := a.1.Alike b.1 ∧ b.2 = a.2

theorem interpretPlain_alike (hsetup : setup.Alike setup') (h : s.Alike t) (i : Instruction) (op : Op) (frame : Frame) :
    Attempt.Alike AlikeOnward (s.interpretPlain setup i op frame) (t.interpretPlain setup' i op frame) := by
  have hstored : (if storesReturnAddress op frame = true then
        { s with returnStores := s.returnStores.insert i.position } else s).Alike
      (if storesReturnAddress op frame = true then
        { t with returnStores := t.returnStores.insert i.position } else t) := by
    split
    · exact { h with returnStores := by rw [h.returnStores] }
    · exact h
  unfold interpretPlain
  dsimp only
  generalize (if storesReturnAddress op frame = true then _ else s) = u at hstored ⊢
  generalize (if storesReturnAddress op frame = true then _ else t) = w at hstored ⊢
  rw [hstored.registry, hsetup.context]
  have hexecuted := hstored.setRegistry (frame.execute op (setup.context i.position) u.registry).1
  refine (require_alike _ _ setup setup' i.position (Prod.snd (frame.execute op _ u.registry))).elim ?_
    (fun _ _ he => .error he)
  rintro after _ rfl
  dsimp only
  split
  · refine (mergeHandlers_alike hsetup hexecuted i.position after).elim ?_ (fun _ _ he => .error he)
    intro u' w' halike
    exact .ok ⟨halike, rfl⟩
  · exact .ok ⟨hexecuted, rfl⟩

theorem Alike.visit (h : s.Alike t) (position : Nat) :
    { s with visited := s.visited.insert position }.Alike { t with visited := t.visited.insert position } :=
  { h with visited := by rw [h.visited] }

theorem Alike.insertRet (h : s.Alike t) (position : Nat) (frame : Frame) :
    { s with retFrames := s.retFrames.insert position frame }.Alike
      { t with retFrames := t.retFrames.insert position frame } :=
  { h with retFrames := by rw [h.retFrames] }

/-- One look ends alike, whatever is recorded. -/
theorem interpretOne_alike (hsetup : setup.Alike setup') (h : s.Alike t) (i : Instruction) (frame : Frame) :
    Attempt.Alike AlikeOnward (s.interpretOne setup i frame) (t.interpretOne setup' i frame) := by
  have hlooked := (h.visit i.position).note setup setup' (.interpreting i.position i.mnemonic frame)
  unfold interpretOne
  dsimp only
  refine (mergeHandlers_alike hsetup hlooked i.position frame).elim ?_ (fun _ _ he => .error he)
  intro u w huw
  dsimp only
  split
  · exact interpretPlain_alike hsetup huw i _ frame
  · rename_i kind target _
    refine (require_alike u w setup setup' i.position (frame.executeBranch kind)).elim ?_ (fun _ _ he => .error he)
    rintro after _ rfl
    dsimp only
    refine (mergeInto_alike setup setup' huw target after).elim ?_ (fun _ _ he => .error he)
    exact fun _ _ halike => .ok ⟨halike, rfl⟩
  · rename_i default cases _
    refine (require_alike u w setup setup' i.position frame.executeSelect).elim ?_ (fun _ _ he => .error he)
    rintro after _ rfl
    dsimp only
    refine (mergeIntoAll_alike setup setup' huw (default :: cases.targets) after).elim ?_ (fun _ _ he => .error he)
    exact fun _ _ halike => .ok ⟨halike, rfl⟩
  · rename_i target _
    refine (interpretJsr_alike hsetup huw i target frame).elim ?_ (fun _ _ he => .error he)
    exact fun _ _ halike => .ok ⟨halike, rfl⟩
  · rename_i slot _
    refine (interpretRet_alike hsetup (huw.insertRet i.position frame) i slot frame).elim ?_ (fun _ _ he => .error he)
    exact fun _ _ halike => .ok ⟨halike, rfl⟩

theorem isMerged_congr (hsetup : setup.Alike setup') (h : s.Alike t) (position : Nat) :
    t.isMerged setup' position = s.isMerged setup position := by
  unfold isMerged
  rw [hsetup.mergePoints, h.states]

/-- A run through the code ends alike. -/
theorem interpret_alike (hsetup : setup.Alike setup') (h : s.Alike t) (origin index : Nat) (frame : Frame) :
    Attempt.Alike Alike (interpret setup origin index frame s) (interpret setup' origin index frame t) := by
  induction hleft : setup.body.size - index using Nat.strongRecOn generalizing s t index frame with
  | _ left ih =>
    cases hi : setup.body.get? index with
    | none =>
      rw [interpret_none hi, interpret_none (hsetup.body ▸ hi)]
      exact .error rfl
    | some i =>
      rw [interpret_some hi, interpret_some (hsetup.body ▸ hi), isMerged_congr hsetup h, hsetup.body]
      split
      · exact mergeInto_alike setup setup' h i.position frame
      · refine (interpretOne_alike hsetup h i frame).elim ?_ (fun _ _ he => .error he)
        rintro ⟨u, _⟩ ⟨w, next⟩ ⟨huw, rfl⟩
        cases next with
        | none => exact .ok huw
        | some after =>
          dsimp only
          split
          · exact .error rfl
          · exact ih _ (by omega) huw (index + 1) after rfl

theorem interpretAt_alike (hsetup : setup.Alike setup') (h : s.Alike t) (position : Nat) (frame : Frame) :
    Attempt.Alike Alike (s.interpretAt setup position frame) (t.interpretAt setup' position frame) := by
  unfold interpretAt
  rw [hsetup.body]
  split
  · exact .error rfl
  · exact interpret_alike hsetup h position _ frame

theorem round_alike (hsetup : setup.Alike setup') (h : s.Alike t) (position : Nat) :
    Attempt.Alike Alike (s.round setup position) (t.round setup' position) := by
  unfold round
  rw [h.retFrames, h.states]
  split
  · refine interpretAt_alike hsetup ?_ position _
    exact { h with states := rfl, retFrames := rfl }
  · exact interpretAt_alike hsetup h position _
  · exact .ok h

/-- All rounds end alike. -/
theorem run_alike (hsetup : setup.Alike setup') (h : s.Alike t) : Attempt.Alike Alike (s.run setup) (t.run setup') := by
  fun_induction run setup s generalizing t with
  | case1 s hidle =>
    rw [run_nil (h.worklist.trans hidle)]
    exact .ok h
  | case2 s position rest hwork e hround =>
    have halike := round_alike hsetup (h.popped rest) position
    rw [run_cons (h.worklist.trans hwork)]
    rw [hround] at halike
    generalize { t with worklist := rest }.round setup' position = y at halike ⊢
    cases halike with
    | error he => exact .error he
  | case3 s position rest hwork u hround ih =>
    have halike := round_alike hsetup (h.popped rest) position
    rw [run_cons (h.worklist.trans hwork)]
    rw [hround] at halike
    generalize { t with worklist := rest }.round setup' position = y at halike ⊢
    cases halike with
    | ok huw => exact ih huw

end Session

namespace Inference

variable {setup setup' : Setup}

theorem analyse_alike (hsetup : setup.Alike setup') (entry : Frame) :
    Attempt.Alike Session.Alike (analyse setup entry) (analyse setup' entry) := by
  unfold analyse
  dsimp only
  rw [hsetup.body, hsetup.method]
  refine (Session.mergeInto_alike setup setup' (.refl _) 0 entry).elim ?_ (fun _ _ he => .error he)
  exact fun _ _ halike => Session.run_alike hsetup halike

theorem prepare_map (recording : Bool) (method : Method) : prepare recording method =
    (prepare false method).map fun prepared => ({ prepared.1 with recording }, prepared.2) := by
  unfold prepare
  cases Body.decode method.code.bytes with
  | error e => rfl
  | ok body =>
    by_cases hsize : body.size = 0
    · simp [bind, Except.bind, hsize, throw, throwThe, MonadExceptOf.throw, Except.map]
    · simp only [bind, Except.bind, hsize, if_false]
      cases method.code.exceptionTable.mapM (resolveHandler method body) with
      | error e => rfl
      | ok handlers =>
        dsimp only
        cases Frame.entry method.className method.isStatic method.isConstructor method.descriptor
          method.code.maxLocals.toNat with
        | error e => rfl
        | ok entry => rfl

theorem verified_alike {s t : Session} (h : s.Alike t) (body : Body) : t.verified body = s.verified body := by
  unfold Session.verified
  rw [h.states, h.registry, h.returnStores, h.jsrRets, h.framesPopped, h.visited]

/-- **The verdict on a method is the same with and without recording.** -/
theorem value_verify (recording : Bool) (method : Method) : (verify recording method).value = method.verify := by
  unfold Method.verify verify
  rw [prepare_map recording]
  cases prepare false method with
  | error e => rfl
  | ok prepared =>
    obtain ⟨setup, entry⟩ := prepared
    dsimp only [Except.map]
    have hsetup : setup.Alike { setup with recording } := ⟨rfl, rfl, rfl, rfl⟩
    refine (analyse_alike hsetup entry).elim ?_ ?_
    · intro s t halike
      exact congrArg Except.ok (verified_alike halike setup.body)
    · intro e e' he
      exact congrArg Except.error he

end Inference

end Bytecode
