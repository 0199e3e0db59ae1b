import Bytecode.Proofs.Acceptance
import Bytecode.Proofs.ArrivalOrder

/-!
# Merging a frame into a state

When a frame arrives at a place, the state there is changed in place: the stack is joined slot by slot, then the locals, then
values of two words are given up that are no longer whole, and at last the nestings are merged.  Each of these steps notes
whether it changed something.

* `TypeState.mergeInPlace`: the steps as changes of a state, which can fail on the way;
* `TypeState.run_mergeInPlace`: they come to `TypeState.merge`, which leaves the state alone when it fails and compares
  frames to tell whether something changed;
* `Frame.merge_eq_ok_iff`: the frames that can be merged, and the slots of the result;
* `Frame.isJoin_merge`: the result is the least frame above both.
-/

namespace Bytecode

/-! ## Steps that note changes -/

namespace Frame

/-- Join the locals of another frame into some, noting whether one changes. -/
def joinLocalsNoting : List VType → List VType → List VType × Bool
  | t :: ts, u :: us =>
    let rest := joinLocalsNoting ts us
    (t.join u :: rest.1, rest.2 || t.join u ≠ t)
  | ts, _ => (ts, false)

/-- Join stacks slot by slot, noting whether a slot changes; every slot must stay usable. -/
def joinStacksNoting : List VType → List VType → Except VerifyFault (List VType × Bool)
  | t :: ts, u :: us => do
    let rest ← joinStacksNoting ts us
    if t.join u = .top then throw .incompatibleStackSlot
    return (t.join u :: rest.1, rest.2 || t.join u ≠ t)
  | _, _ => .ok ([], false)

theorem joinLocalsNoting_eq (ts us : List VType) :
    joinLocalsNoting ts us = (joinLocals ts us, decide (joinLocals ts us ≠ ts)) := by
  induction ts generalizing us with
  | nil => cases us <;> simp [joinLocalsNoting, joinLocals]
  | cons t ts ih =>
    cases us with
    | nil => simp [joinLocalsNoting, joinLocals]
    | cons u us =>
      simp only [joinLocalsNoting, joinLocals, ih]
      by_cases hhead : t.join u = t <;> by_cases hrest : joinLocals ts us = ts <;> simp [hhead, hrest]

theorem joinStacksNoting_eq {ts us : List VType} (hlength : ts.length = us.length) :
    joinStacksNoting ts us = (joinStacks ts us).map fun joined => (joined, decide (joined ≠ ts)) := by
  induction ts generalizing us with
  | nil =>
    obtain rfl : us = [] := List.length_eq_zero_iff.mp hlength.symm
    simp [joinStacksNoting, joinStacks, Except.map]
  | cons t ts ih =>
    cases us with
    | nil => simp at hlength
    | cons u us =>
      unfold joinStacksNoting joinStacks
      rw [ih (by simpa using hlength)]
      cases joinStacks ts us with
      | error fault => rfl
      | ok joined =>
        by_cases htop : t.join u = .top
        · simp [htop, Except.map, bind, Except.bind, throw, throwThe, MonadExceptOf.throw]
        · by_cases hhead : t.join u = t <;> by_cases hrest : joined = ts <;>
            simp_all [Except.map, bind, Except.bind, pure, Except.pure]

/-- Normalizing does not bring back locals that joining has changed, since both only lower the rank. -/
theorem normalized_joinLocals_eq_iff (ts us : List VType) :
    normalized (joinLocals ts us) = ts ↔ joinLocals ts us = ts ∧ normalized (joinLocals ts us) = joinLocals ts us := by
  constructor
  · intro h
    have hjoin : joinLocals ts us = ts := by
      rcases rank_joinLocals ts us with hlt | heq
      · rcases rank_normalized (joinLocals ts us) with hlt' | heq'
        · rw [h] at hlt'
          omega
        · exact heq'.symm.trans h
      · exact heq
    exact ⟨hjoin, h.trans hjoin.symm⟩
  · rintro ⟨hjoin, hnormal⟩
    exact hnormal.trans hjoin

theorem eq_iff {f g : Frame} : f = g ↔ f.locals = g.locals ∧ f.stack = g.stack ∧ f.nesting = g.nesting := by
  cases f
  cases g
  exact Iff.of_eq (Frame.mk.injEq ..)

/-- What the steps of a merge note together is whether the frame changes. -/
theorem noted_eq (f incoming : Frame) (stack : List VType) :
    (decide (stack ≠ f.stack) || decide (joinLocals f.locals incoming.locals ≠ f.locals) ||
        decide (normalized (joinLocals f.locals incoming.locals) ≠ joinLocals f.locals incoming.locals) ||
        decide (f.nesting.merge incoming.nesting ≠ f.nesting)) =
      decide ({ f.absorb incoming with stack } ≠ f) := by
  simp only [← Bool.decide_or, decide_eq_decide, ne_eq, eq_iff, absorb, normalized_joinLocals_eq_iff]
  tauto

end Frame

/-- Merge the nesting of another path, noting whether this changes the nesting. -/
def Nesting.mergeNoting (n other : Nesting) : Nesting × Bool :=
  if other.length < n.length then (other, true)
  else if other.length = n.length ∧ n ≠ other then (shared n other, true)
  else (n, false)

theorem Nesting.mergeNoting_eq (n other : Nesting) :
    n.mergeNoting other = (n.merge other, decide (n.merge other ≠ n)) := by
  unfold mergeNoting
  rcases Nat.lt_trichotomy n.length other.length with hlt | heq | hgt
  · rw [if_neg (by omega), if_neg (by omega), merge_of_lt hlt]
    simp
  · rw [if_neg (by omega), merge_of_eq heq]
    by_cases hsame : n = other
    · subst hsame
      simp [shared_self]
    · have hne : shared n other ≠ n := by
        intro hshared
        have houter : shared n other <+: other := (prefix_shared_iff.mp List.prefix_rfl).2
        rw [hshared] at houter
        exact hsame (houter.eq_of_length heq)
      simp [heq, hsame, hne]
  · have hne : other ≠ n := by
      rintro rfl
      omega
    rw [if_pos hgt, merge_of_gt hgt]
    simp [hne]

namespace TypeState

/-! ## Merging in place -/

/-- Changes of a state that can fail.  What was written before a failure stays written. -/
abbrev Change := EStateM VerifyFault TypeState

/-- Write to the frame of a state. -/
def writeFrame (write : Frame → Frame) : Change Unit := modify fun s => { s with frame := write s.frame }

/-- Merge a frame that arrives into the state, step by step, and tell whether one of the steps changed anything. -/
def mergeInPlace (incoming : Frame) : Change Bool := do
  let frame := (← get).frame
  if frame.stack.length ≠ incoming.stack.length ∨ frame.height ≠ incoming.height then
    throw .stackHeightMismatch
  let stack ← MonadExcept.ofExcept (Frame.joinStacksNoting frame.stack incoming.stack)
  writeFrame fun f => { f with stack := stack.1 }
  let locals := Frame.joinLocalsNoting frame.locals incoming.locals
  writeFrame fun f => { f with locals := locals.1 }
  writeFrame Frame.normalizeLocals
  let normal := (← get).frame.locals
  let nesting := frame.nesting.mergeNoting incoming.nesting
  writeFrame fun f => { f with nesting := nesting.1 }
  return stack.2 || locals.2 || normal ≠ locals.1 || nesting.2

/-- The outcome of a merge as a change of the state, which stays as it is if merging fails. -/
def outcome (s : TypeState) : Except VerifyFault (Bool × TypeState) → EStateM.Result VerifyFault TypeState Bool
  | .error fault => .error fault s
  | .ok (changed, t) => .ok changed t

/-- The steps fail before the first of them writes, and what they note is whether the frame changes. -/
theorem run_mergeInPlace (s : TypeState) (incoming : Frame) :
    (mergeInPlace incoming).run s = s.outcome (s.merge incoming) := by
  unfold TypeState.merge Frame.merge mergeInPlace
  simp only [EStateM.run_bind, EStateM.run_get]
  by_cases hshape : s.frame.stack.length ≠ incoming.stack.length ∨ s.frame.height ≠ incoming.height
  · rw [if_pos hshape, if_pos hshape]
    rfl
  · rw [if_neg hshape, if_neg hshape]
    push Not at hshape
    rw [Frame.joinStacksNoting_eq hshape.1, Frame.joinLocalsNoting_eq, Nesting.mergeNoting_eq]
    cases hstack : Frame.joinStacks s.frame.stack incoming.stack with
    | error fault => rfl
    | ok stack =>
      exact congrArg (fun changed => EStateM.Result.ok changed { s with frame := { s.frame.absorb incoming with stack } })
        (s.frame.noted_eq incoming stack)

end TypeState

/-! ## The merged frame -/

namespace Frame

/-- Two frames that cannot be merged: their stacks are of different length or height, or have values at one place with
nothing in common. -/
def Misfits (f g : Frame) : Prop :=
  f.stack.length ≠ g.stack.length ∨ f.height ≠ g.height ∨ .top ∈ List.zipWith VType.join f.stack g.stack

instance (f g : Frame) : Decidable (f.Misfits g) := inferInstanceAs (Decidable (_ ∨ _ ∨ _))

/-- Values of two words are whole in the locals, and every value on the stack is usable. -/
structure Whole (f : Frame) : Prop where
  paired : Exec.Paired f.locals
  usable : .top ∉ f.stack

/-- The locals and the stack of a frame are below those of another, slot by slot. -/
structure SlotsBelow (f g : Frame) : Prop where
  locals : List.Forall₂ (· ≤ ·) f.locals g.locals
  stack : List.Forall₂ (· ≤ ·) f.stack g.stack

/-- A whole frame is above two frames, and below every other frame that is. -/
structure IsJoin (f g joined : Frame) : Prop where
  whole : joined.Whole
  left : f.SlotsBelow joined
  right : g.SlotsBelow joined
  least : ∀ bound : Frame, f.SlotsBelow bound → g.SlotsBelow bound → joined.SlotsBelow bound

theorem joinLocals_eq_zipWith {ts us : List VType} (hlength : ts.length = us.length) :
    joinLocals ts us = List.zipWith VType.join ts us := by
  induction ts generalizing us with
  | nil => cases us <;> rfl
  | cons t ts ih =>
    cases us with
    | nil => simp at hlength
    | cons u us =>
      rw [joinLocals, List.zipWith_cons_cons, ih (by simpa using hlength)]

theorem joinStacks_eq_ok_iff {ts us joined : List VType} :
    joinStacks ts us = .ok joined ↔ joined = List.zipWith VType.join ts us ∧ .top ∉ joined := by
  induction ts generalizing us joined with
  | nil => simp +contextual [joinStacks, eq_comm]
  | cons t ts ih =>
    cases us with
    | nil => simp +contextual [joinStacks, eq_comm]
    | cons u us =>
      unfold joinStacks
      rw [bind_eq_ok, List.zipWith_cons_cons]
      constructor
      · rintro ⟨rest, hrest, h⟩
        obtain ⟨rfl, husable⟩ := ih.mp hrest
        by_cases htop : t.join u = .top
        · simp [htop, bind, Except.bind, throw, throwThe, MonadExceptOf.throw] at h
        · simp only [if_neg htop] at h
          obtain rfl := pure_eq_ok.mp h
          exact ⟨rfl, by simp [Ne.symm htop, husable]⟩
      · rintro ⟨rfl, husable⟩
        rw [List.mem_cons, not_or] at husable
        refine ⟨_, ih.mpr ⟨rfl, husable.2⟩, ?_⟩
        simp only [if_neg (Ne.symm husable.1)]
        rfl

theorem normalized_joinLocals {ts us : List VType} (ht : Exec.Paired ts) (hu : Exec.Paired us)
    (hlength : ts.length = us.length) : normalized (joinLocals ts us) = List.zipWith VType.join ts us := by
  rw [normalized_of_paired (paired_joinLocals ht hu hlength), joinLocals_eq_zipWith hlength]

/-- Two frames with whole values merge unless they misfit, slot by slot. -/
theorem merge_eq_ok_iff {f g merged : Frame} (hf : Exec.Paired f.locals) (hg : Exec.Paired g.locals)
    (hlength : f.locals.length = g.locals.length) :
    f.merge g = .ok merged ↔ ¬ f.Misfits g ∧
      merged = ⟨List.zipWith VType.join f.locals g.locals, List.zipWith VType.join f.stack g.stack,
        f.nesting.merge g.nesting⟩ := by
  unfold merge Misfits
  by_cases hshape : f.stack.length ≠ g.stack.length ∨ f.height ≠ g.height
  · rw [if_pos hshape]
    simp only [reduceCtorEq, false_iff]
    tauto
  · rw [if_neg hshape, ← or_assoc, not_or, and_iff_right hshape, absorb, normalized_joinLocals hf hg hlength]
    constructor
    · intro h
      split at h
      · simp at h
      · rename_i stack hstack
        obtain ⟨rfl, husable⟩ := joinStacks_eq_ok_iff.mp hstack
        exact ⟨husable, (Except.ok.inj h).symm⟩
    · rintro ⟨husable, rfl⟩
      rw [joinStacks_eq_ok_iff.mpr ⟨rfl, husable⟩]

theorem merge_eq_error_iff {f g : Frame} (hf : Exec.Paired f.locals) (hg : Exec.Paired g.locals)
    (hlength : f.locals.length = g.locals.length) : (∃ fault, f.merge g = .error fault) ↔ f.Misfits g := by
  rw [← not_iff_not]
  cases hmerge : f.merge g with
  | error fault =>
    have hmisfits : f.Misfits g := by
      by_contra hfit
      exact absurd (hmerge.symm.trans ((merge_eq_ok_iff hf hg hlength).mpr ⟨hfit, rfl⟩)) (by simp)
    simp [hmisfits]
  | ok merged => simp [((merge_eq_ok_iff hf hg hlength).mp hmerge).1]

/-- What two frames with whole values merge to is the least whole frame above both. -/
theorem isJoin_merge {f g merged : Frame} (hf : Exec.Paired f.locals) (hg : Exec.Paired g.locals)
    (hlength : f.locals.length = g.locals.length) (h : f.merge g = .ok merged) : f.IsJoin g merged := by
  obtain ⟨hfit, rfl⟩ := (merge_eq_ok_iff hf hg hlength).mp h
  unfold Misfits at hfit
  push Not at hfit
  obtain ⟨hdepth, -, husable⟩ := hfit
  rw [← joinLocals_eq_zipWith hlength, ← joinLocals_eq_zipWith hdepth]
  rw [← joinLocals_eq_zipWith hdepth] at husable
  obtain ⟨hleft, hright⟩ := joinLocals_above hlength
  obtain ⟨hleft', hright'⟩ := joinLocals_above hdepth
  exact
    { whole := ⟨paired_joinLocals hf hg hlength, husable⟩
      left := ⟨hleft, hleft'⟩
      right := ⟨hright, hright'⟩
      least := fun _ hf hg => ⟨joinLocals_le hf.locals hg.locals, joinLocals_le hf.stack hg.stack⟩ }

end Frame

namespace TypeState

variable {s t : TypeState} {f : Frame} {changed : Bool}

theorem run_mergeInPlace_eq_ok : (mergeInPlace f).run s = .ok changed t ↔
    s.frame.merge f = .ok t.frame ∧ t = { s with frame := t.frame } ∧ (changed = true ↔ t.frame ≠ s.frame) := by
  rw [run_mergeInPlace, TypeState.merge]
  cases s.frame.merge f with
  | error fault => simp [outcome]
  | ok merged =>
    constructor
    · intro h
      obtain ⟨rfl, rfl⟩ := EStateM.Result.ok.inj h
      exact ⟨rfl, rfl, decide_eq_true_iff⟩
    · rintro ⟨hmerged, hrest, hchanged⟩
      obtain rfl := Except.ok.inj hmerged
      have hflag : decide (t.frame ≠ s.frame) = changed := Bool.eq_iff_iff.mpr (decide_eq_true_iff.trans hchanged.symm)
      rw [outcome, hflag, ← hrest]

theorem run_mergeInPlace_eq_error {fault : VerifyFault} : (mergeInPlace f).run s = .error fault t ↔
    s.frame.merge f = .error fault ∧ t = s := by
  rw [run_mergeInPlace, TypeState.merge]
  cases s.frame.merge f with
  | error fault => simp [outcome, eq_comm]
  | ok merged => simp [outcome]

/-- Joining is idempotent, commutative and associative.  Merging a frame into a state step by step fails exactly on frames
that do not fit, with the state as it was.  Otherwise it leaves the least whole frame above both, every slot of which is the
join of the two slots, and tells whether the locals, the stack or the active subroutines differ from what they were. -/
theorem merging_joins (s : TypeState) (f : Frame) (hs : Exec.Paired s.frame.locals) (hf : Exec.Paired f.locals)
    (hlength : s.frame.locals.length = f.locals.length) :
    (∀ a b c : VType, a.join a = a ∧ a.join b = b.join a ∧ (a.join b).join c = a.join (b.join c)) ∧
    (mergeInPlace f).run s = s.outcome (s.merge f) ∧
    ((∃ fault t, (mergeInPlace f).run s = .error fault t) ↔ s.frame.Misfits f) ∧
    (∀ fault t, (mergeInPlace f).run s = .error fault t → t = s) ∧
    ∀ changed t, (mergeInPlace f).run s = .ok changed t →
      t = { s with frame := t.frame } ∧ s.frame.IsJoin f t.frame ∧
      t.frame.locals = List.zipWith VType.join s.frame.locals f.locals ∧
      t.frame.stack = List.zipWith VType.join s.frame.stack f.stack ∧
      t.frame.nesting = s.frame.nesting.merge f.nesting ∧
      (changed = true ↔
        t.frame.locals ≠ s.frame.locals ∨ t.frame.stack ≠ s.frame.stack ∨ t.frame.nesting ≠ s.frame.nesting) := by
  refine ⟨fun a b c => ⟨a.join_self, a.join_comm b, sup_assoc a b c⟩, run_mergeInPlace s f, ?_, ?_, ?_⟩
  · rw [← Frame.merge_eq_error_iff hs hf hlength]
    simp [run_mergeInPlace_eq_error]
  · intro fault t h
    exact (run_mergeInPlace_eq_error.mp h).2
  · intro changed t h
    obtain ⟨hmerge, hrest, hchanged⟩ := run_mergeInPlace_eq_ok.mp h
    obtain ⟨-, hslots⟩ := (Frame.merge_eq_ok_iff hs hf hlength).mp hmerge
    refine ⟨hrest, Frame.isJoin_merge hs hf hlength hmerge, congrArg Frame.locals hslots, congrArg Frame.stack hslots,
      congrArg Frame.nesting hslots, ?_⟩
    rw [hchanged, ne_eq, Frame.eq_iff]
    tauto

/-- In a subroutine: a value of two words in the first two locals. -/
def longFirst : TypeState := ⟨4, ⟨[.long, .top, .null], [.null], [10]⟩, true⟩

/-- The same place, reached from outside of the subroutine with a value of two words in the last two locals. -/
def longLast : Frame := ⟨[.int, .long, .top], [.ofClass .object], []⟩

/-- Neither value of two words survives, the stack keeps the object and no subroutine stays active; a number on the stack
does not fit. -/
theorem merging_joins_longFirst :
    (Exec.Paired longFirst.frame.locals ∧ Exec.Paired longLast.locals) ∧
    (∃ t, (mergeInPlace longLast).run longFirst = .ok true t ∧ longFirst.frame.IsJoin longLast t.frame ∧
      t.frame = ⟨[.top, .top, .top], [.ofClass .object], []⟩) ∧
    ∃ fault, (mergeInPlace { longLast with stack := [.int] }).run longFirst = .error fault longFirst := by
  have hfirst : Exec.Paired longFirst.frame.locals := Frame.paired_normalized longFirst.frame.locals
  have hlast : Exec.Paired longLast.locals := Frame.paired_normalized longLast.locals
  obtain ⟨-, -, -, -, hok⟩ := merging_joins longFirst longLast hfirst hlast rfl
  have hrun : (mergeInPlace longLast).run longFirst =
      .ok true ⟨4, ⟨[.top, .top, .top], [.ofClass .object], []⟩, true⟩ := rfl
  obtain ⟨-, hjoin, -⟩ := hok _ _ hrun
  obtain ⟨-, -, hfails, hsame, -⟩ := merging_joins longFirst { longLast with stack := [.int] } hfirst hlast rfl
  obtain ⟨fault, t, hfault⟩ := hfails.mpr (by decide)
  obtain rfl := hsame fault t hfault
  exact ⟨⟨hfirst, hlast⟩, ⟨_, hrun, hjoin, rfl⟩, fault, hfault⟩

end TypeState

end Bytecode
