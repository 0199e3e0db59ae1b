import Bytecode.Proofs.Fixpoint
import Bytecode.Proofs.Rounds

/-!
# The course of the analysis

The analysis goes from one look at an instruction to the next.

* `Inference.Passes`: the sessions that it passes, between rounds and right before each look;
* `Inference.passes_analyse`: it ends with the last of them;
* `Session.Recalls`: of every `ret` there is a look at which the subroutine returned to all calls that are known, with
  the locals taken as accessed that were known to be so at that look (`Inference.Passes.keeps`);
* `Inference.Passes.goesThrough`: in an analysis that ends, every look goes through, and what it finds out stays known;
* `Inference.Passes.noted`: what every look keeps true of the registry and of the noted stores is true on the whole way;
* `Inference.Passes.seen`: every place with a state has to be looked at or was looked at with the frame of its state.
-/

namespace Bytecode

variable {setup : Setup} {entry frame : Frame} {s t : Session} {code : List UInt8} {index position : Nat}
   {i : Instruction}

namespace Inference

/-- The sessions that the analysis passes: between rounds (`none`), and right before it looks at the instruction with an
index with a frame. -/
inductive Passes (setup : Setup) (entry : Frame) : Option (Nat × Frame) → Session → Prop
  | enter {s : Session}
      (h : (Session.start setup.body.codeLength setup.method.code.maxLocals.toNat).mergeInto setup 0 entry = .ok s) :
      Passes setup entry none s
  /-- A round from the state of a place. -/
  | state {s : Session} {position index : Nat} {rest : List Nat} {st : TypeState} (h : Passes setup entry none s)
      (hwork : s.worklist = position :: rest) (hst : s.states.get? position = some st)
      (hindex : setup.body.indexOf? position = some index) :
      Passes setup entry (some (index, st.frame))
        { s with worklist := rest, states := s.states.insert position { st with visited := true } }
  /-- A round from a `ret` that has no state, with the frame it was last looked at with. -/
  | ret {s : Session} {position index : Nat} {rest : List Nat} {frame : Frame} (h : Passes setup entry none s)
      (hwork : s.worklist = position :: rest) (hst : s.states.get? position = none)
      (hframe : s.retFrames.get? position = some frame) (hindex : setup.body.indexOf? position = some index) :
      Passes setup entry (some (index, frame)) { s with worklist := rest }
  /-- A round in which there is nothing to look at. -/
  | nothing {s : Session} {position : Nat} {rest : List Nat} (h : Passes setup entry none s)
      (hwork : s.worklist = position :: rest) (hst : s.states.get? position = none)
      (hframe : s.retFrames.get? position = none) : Passes setup entry none { s with worklist := rest }
  /-- Control leaves. -/
  | left {s t : Session} {index : Nat} {i : Instruction} {frame : Frame} (h : Passes setup entry (some (index, frame)) s)
      (hi : setup.body.get? index = some i) (hone : s.interpretOne setup i frame = .ok (t, none)) :
      Passes setup entry none t
  /-- Control goes on to a place that is looked at from its own state. -/
  | met {s t u : Session} {index : Nat} {i i' : Instruction} {frame next : Frame}
      (h : Passes setup entry (some (index, frame)) s) (hi : setup.body.get? index = some i)
      (hone : s.interpretOne setup i frame = .ok (t, some next)) (hi' : setup.body.get? (index + 1) = some i')
      (hmerged : t.isMerged setup i'.position = true) (hmerge : t.mergeInto setup i'.position next = .ok u) :
      Passes setup entry none u
  /-- Control goes on. -/
  | on {s t : Session} {index : Nat} {i i' : Instruction} {frame next : Frame}
      (h : Passes setup entry (some (index, frame)) s) (hi : setup.body.get? index = some i)
      (hone : s.interpretOne setup i frame = .ok (t, some next)) (hi' : setup.body.get? (index + 1) = some i')
      (hmerged : t.isMerged setup i'.position = false) : Passes setup entry (some (index + 1, next)) t

theorem passes_interpret {origin : Nat}
    (hp : setup.Prepared code) (hpasses : Passes setup entry (some (index, frame)) s)
    (hi : setup.body.get? index = some i) (horigin : origin ≤ i.position)
    (hlooks : ¬ (i.position ≠ origin && s.isMerged setup i.position) = true)
    (h : Session.interpret setup origin index frame s = .ok t) : Passes setup entry none t := by
  fun_induction Session.interpret setup origin index frame s generalizing i with
  | case1 index frame s hnone =>
    rw [hnone] at hi
    simp at hi
  | case2 index frame s j hj hmerged =>
    obtain rfl := Option.some.inj (hj.symm.trans hi)
    exact absurd hmerged hlooks
  | case3 => simp at h
  | case4 index frame s j hj hmerged u hone =>
    obtain rfl := Except.ok.inj h
    exact .left hpasses hj hone
  | case5 => simp [Session.reject] at h
  | case6 index frame s j hj hmerged u next hone hsize ih =>
    obtain rfl := Option.some.inj (hj.symm.trans hi)
    obtain ⟨i', hi'⟩ := setup.body.exists_get? (index + 1) (by omega)
    have hlater := hp.tiles.position_lt (Nat.lt_succ_self index) hi hi'
    have horigin' : i'.position ≠ origin := by omega
    by_cases hmerged' : u.isMerged setup i'.position = true
    · -- the run ends here
      unfold Session.interpret at h
      split at h
      · rename_i hnone
        rw [hi'] at hnone
        simp at hnone
      · rename_i k hk
        obtain rfl := Option.some.inj (hi'.symm.trans hk)
        rw [if_pos (by simp [horigin', hmerged'])] at h
        exact .met hpasses hj hone hi' hmerged' h
    · refine ih (.on hpasses hj hone hi' (by simpa using hmerged')) hi' (by omega) ?_ h
      simp [hmerged']

/-- What a round does: it looks at the code from a place on, or finds nothing to look at. -/
theorem round_cases {rest : List Nat} (hp : setup.Prepared code) (hpasses : Passes setup entry none s)
    (hwork : s.worklist = position :: rest) (h : { s with worklist := rest }.round setup position = .ok t) :
    (∃ index i frame u, setup.body.get? index = some i ∧ i.position = position ∧ s.Learns u ∧
        Passes setup entry (some (index, frame)) u ∧ Session.interpret setup position index frame u = .ok t) ∨
      s.Learns t ∧ Passes setup entry none t := by
  have hstart : ∀ {u : Session} {frame : Frame}, s.Learns u →
      (∀ index, setup.body.indexOf? position = some index → Passes setup entry (some (index, frame)) u) →
      u.interpretAt setup position frame = .ok t →
      ∃ index i frame u, setup.body.get? index = some i ∧ i.position = position ∧ s.Learns u ∧
        Passes setup entry (some (index, frame)) u ∧ Session.interpret setup position index frame u = .ok t := by
    intro u frame hlearns hfirst hinterpret
    unfold Session.interpretAt at hinterpret
    split at hinterpret
    · simp [Session.reject] at hinterpret
    · rename_i index hindex
      obtain ⟨i, hi, hposition⟩ := hp.tiles.indexOf?_eq_some_iff.mp hindex
      exact ⟨index, i, frame, u, hi, hposition, hlearns, hfirst index hindex, hinterpret⟩
  unfold Session.round at h
  dsimp only at h
  split at h
  · rename_i st _ hst
    exact Or.inl (hstart (Session.learns_pop rest hst) (fun index hindex => .state hpasses hwork hst hindex) h)
  · rename_i frame hst hframe
    exact Or.inl (hstart (Session.learns_worklist s rest) (fun index hindex => .ret hpasses hwork hst hframe hindex) h)
  · rename_i hst hframe
    obtain rfl := Except.ok.inj h
    exact Or.inr ⟨Session.learns_worklist s rest, .nothing hpasses hwork hst hframe⟩

theorem passes_round {rest : List Nat} (hp : setup.Prepared code) (hpasses : Passes setup entry none s)
    (hwork : s.worklist = position :: rest) (h : { s with worklist := rest }.round setup position = .ok t) :
    Passes setup entry none t := by
  rcases round_cases hp hpasses hwork h with ⟨index, i, frame, u, hi, hposition, -, hfirst, hinterpret⟩ | ⟨-, hnone⟩
  · exact passes_interpret hp hfirst hi (by omega) (by simp [hposition]) hinterpret
  · exact hnone

theorem passes_run (hp : setup.Prepared code)
    (hpasses : Passes setup entry none s) (h : s.run setup = .ok t) : Passes setup entry none t := by
  fun_induction Session.run setup s with
  | case1 s hwork =>
    obtain rfl := Except.ok.inj h
    exact hpasses
  | case2 => simp at h
  | case3 s position rest hwork u hround ih => exact ih (passes_round hp hpasses hwork hround) h

/-- The analysis ends with a session that it passes. -/
theorem passes_analyse (hp : setup.Prepared code) (h : analyse setup entry = .ok s) : Passes setup entry none s := by
  unfold analyse at h
  obtain ⟨s₀, hs₀, hrun⟩ := bind_eq_ok.mp h
  exact passes_run hp (.enter hs₀) hrun

end Inference

/-! ## The last look at a `ret` -/

namespace Session

/-- Every `ret` that was looked at has to be looked at again, or there is a look at it with its frame after which the
subroutine returned to all calls that are known.  The locals that were taken as accessed are those known to be so right
before that look. -/
def Recalls (setup : Setup) (entry : Frame) (pending : List Nat) (s : Session) : Prop :=
  ∀ r f, s.retFrames.get? r = some f → ∃ (index : Nat) (i : Instruction) (slot : UInt16),
    setup.body.get? index = some i ∧ i.position = r ∧ i.flow = .ret slot ∧
      (r ∈ pending ∨ ∃ (u : Session) (callee : Nat) (sub : Subroutine),
        Inference.Passes setup entry (some (index, f)) u ∧ u.registry.get? callee = some sub ∧
        Left setup s i slot f callee ∧ Returned setup s i.position slot.toNat callee f sub.isAccessed)

theorem Recalls.mono {pending pending' : List Nat}
    (h : s.Recalls setup entry pending) (hlearns : s.Learns t) (hsame : t.retFrames = s.retFrames)
    (hpending : pending ⊆ pending') (hwork : t.worklist ⊆ pending') : t.Recalls setup entry pending' := by
  intro r f hget
  rw [hsame] at hget
  obtain ⟨index, i, slot, hi, rfl, hflow, hdone⟩ := h r f hget
  refine ⟨index, i, slot, hi, rfl, hflow, ?_⟩
  rcases hdone with hmem | ⟨u, callee, sub, hpasses, hsub, hleft, hreturned⟩
  · exact Or.inl (hpending hmem)
  · rcases hreturned.mono hleft hlearns with hmem | hreturned'
    · exact Or.inl (hwork hmem)
    · exact Or.inr ⟨u, callee, sub, hpasses, hsub, hleft.mono hlearns, hreturned'⟩

/-- A look at an instruction sees to it, if it is a `ret`. -/
theorem Recalls.look (hp : setup.Prepared code) (h : s.Recalls setup entry (i.position :: s.worklist))
    (hpasses : Inference.Passes setup entry (some (index, frame)) s) (hi : setup.body.get? index = some i)
    (hlooks : LooksAt setup s i frame t) : t.Recalls setup entry t.worklist := by
  intro r f hget
  by_cases hr : r = i.position
  · subst hr
    have hret : ∃ slot, i.flow = .ret slot := by
      rcases hlooks.retFrames i.position with hsame | ⟨-, hret, -⟩
      · rw [hsame] at hget
        obtain ⟨index', i', slot, hi', hposition, hflow, -⟩ := h _ f hget
        obtain rfl := hp.tiles.index_eq hi hi' hposition.symm
        obtain rfl := Option.some.inj (hi.symm.trans hi')
        exact ⟨slot, hflow⟩
      · exact hret
    obtain ⟨slot, hflow⟩ := hret
    have hhandled := hlooks.handled.flow
    unfold FlowHandled at hhandled
    simp only [hflow] at hhandled
    obtain rfl := Option.some.inj (hhandled.1.symm.trans hget)
    obtain ⟨callee, sub, hsub, hleft, hreturned⟩ := hlooks.returned slot hflow
    exact ⟨index, i, slot, hi, rfl, hflow, Or.inr ⟨s, callee, sub, hpasses, hsub, hleft, hreturned⟩⟩
  · rcases hlooks.retFrames r with hsame | ⟨heq, -⟩
    · rw [hsame] at hget
      obtain ⟨index', i', slot, hi', rfl, hflow, hdone⟩ := h r f hget
      refine ⟨index', i', slot, hi', rfl, hflow, ?_⟩
      rcases hdone with hmem | ⟨u, callee, sub, hpasses', hsub, hleft, hreturned⟩
      · exact Or.inl (hlooks.grows.worklist (List.mem_of_ne_of_mem hr hmem))
      · rcases hreturned.mono hleft hlooks.grows.toLearns with hmem | hreturned'
        · exact Or.inl hmem
        · exact Or.inr ⟨u, callee, sub, hpasses', hsub, hleft.mono hlooks.grows.toLearns, hreturned'⟩
    · exact absurd heq hr

end Session

namespace Inference

/-- What holds of every session that is passed. -/
def Keeps (setup : Setup) (entry : Frame) (look : Option (Nat × Frame)) (s : Session) : Prop :=
  s.WellFormed setup ∧ (s.states.get? 0).isSome ∧
    match look with
    | none => s.Recalls setup entry s.worklist
    | some (index, frame) => frame.Fits setup ∧ ∃ i, setup.body.get? index = some i ∧
        s.Recalls setup entry (i.position :: s.worklist)

/-- What a look at an instruction keeps, whatever comes after it. -/
theorem Keeps.look {next : Option Frame} (hp : setup.Prepared code)
    (hpasses : Passes setup entry (some (index, frame)) s) (h : Keeps setup entry (some (index, frame)) s)
    (hi : setup.body.get? index = some i) (hone : s.interpretOne setup i frame = .ok (t, next)) :
    s.Grows t ∧ Keeps setup entry none t ∧ ∀ g, next = some g → g.Fits setup := by
  obtain ⟨hwf, hzero, hfits, j, hj, hrecalls⟩ := h
  obtain rfl := Option.some.inj (hi.symm.trans hj)
  obtain ⟨hlooks, hnext⟩ := Session.interpretOne_spec hp hwf hfits hi hone
  obtain ⟨st, hst⟩ := Option.isSome_iff_exists.mp hzero
  obtain ⟨st', hst', -⟩ := hlooks.grows.states 0 st hst
  refine ⟨hlooks.grows, ⟨hlooks.wellFormed, Option.isSome_of_eq_some hst', hrecalls.look hp hpasses hi hlooks⟩, ?_⟩
  rintro g rfl
  exact hfits.onward hnext.symm

theorem Passes.keeps {look : Option (Nat × Frame)}
    (hp : setup.Prepared code) (hentry : entry.Fits setup) (h : Passes setup entry look s) :
    Keeps setup entry look s := by
  induction h with
  | enter h =>
    obtain ⟨hstep, hwf, hdelivered⟩ := Session.mergeInto_spec (wellFormed_start setup) hentry (Or.inr rfl) h
    refine ⟨hwf, hdelivered.isSome, ?_⟩
    intro r f hget
    rw [hstep.retFrames] at hget
    simp [Session.start] at hget
  | @state s position index rest st _ hwork hst hindex ih =>
    obtain ⟨hwf, hzero, hrecalls⟩ := ih
    obtain ⟨i, hi, rfl⟩ := hp.tiles.indexOf?_eq_some_iff.mp hindex
    obtain ⟨hfits, hhead⟩ := hwf.states i.position st hst
    have hlearns := Session.learns_pop rest hst
    obtain ⟨st₀, hst₀⟩ := Option.isSome_iff_exists.mp hzero
    obtain ⟨st₁, hst₁, -⟩ := hlearns.states 0 st₀ hst₀
    refine ⟨?_, Option.isSome_of_eq_some hst₁, hfits, i, hi, hrecalls.mono hlearns rfl ?_ ?_⟩
    · exact (hwf.congr (t := { s with worklist := rest }) rfl rfl rfl rfl rfl rfl rfl).insertState hfits hhead
    · rw [hwork]
      exact List.Subset.refl _
    · exact List.subset_cons_self _ _
  | @ret s position index rest frame _ hwork hst hframe hindex ih =>
    obtain ⟨hwf, hzero, hrecalls⟩ := ih
    obtain ⟨i, hi, rfl⟩ := hp.tiles.indexOf?_eq_some_iff.mp hindex
    refine ⟨hwf.congr rfl rfl rfl rfl rfl rfl rfl, hzero, hwf.retFrames i.position frame hframe, i, hi,
      hrecalls.mono (Session.learns_worklist s rest) rfl ?_ ?_⟩
    · rw [hwork]
      exact List.Subset.refl _
    · exact List.subset_cons_self _ _
  | @nothing s position rest _ hwork hst hframe ih =>
    obtain ⟨hwf, hzero, hrecalls⟩ := ih
    refine ⟨hwf.congr rfl rfl rfl rfl rfl rfl rfl, hzero, ?_⟩
    -- the place that is taken off has no frame of a `ret`
    intro r f hget
    obtain ⟨index, i, slot, hi, hposition, hflow, hdone⟩ :=
      hrecalls.mono (Session.learns_worklist s rest) rfl (List.Subset.refl _)
        (by rw [hwork]; exact List.subset_cons_self _ _) r f hget
    refine ⟨index, i, slot, hi, hposition, hflow, hdone.imp_left ?_⟩
    intro hmem
    rw [hwork] at hmem
    rcases List.mem_cons.mp hmem with rfl | hmem
    · have hsome : s.retFrames.get? r = some f := hget
      rw [hframe] at hsome
      simp at hsome
    · exact hmem
  | left hpasses hi hone ih => exact (ih.look hp hpasses hi hone).2.1
  | met hpasses hi hone hi' hmerged hmerge ih =>
    obtain ⟨-, ⟨hwf, hzero, hrecalls⟩, hfits⟩ := ih.look hp hpasses hi hone
    obtain ⟨hstep, hwf', -⟩ := Session.mergeInto_spec hwf (hfits _ rfl)
      ((Session.isMerged_iff hwf hzero).mp hmerged) hmerge
    obtain ⟨st, hst⟩ := Option.isSome_iff_exists.mp hzero
    obtain ⟨st', hst', -⟩ := hstep.states 0 st hst
    exact ⟨hwf', Option.isSome_of_eq_some hst',
      hrecalls.mono hstep.toLearns hstep.retFrames hstep.worklist (List.Subset.refl _)⟩
  | @on s t index i i' frame next hpasses hi hone hi' _ ih =>
    obtain ⟨-, ⟨hwf, hzero, hrecalls⟩, hfits⟩ := ih.look hp hpasses hi hone
    exact ⟨hwf, hzero, hfits _ rfl, i', hi',
      hrecalls.mono (Session.Grows.refl t).toLearns rfl (List.subset_cons_self _ _) (List.subset_cons_self _ _)⟩

section Look

variable {setup : Setup} {code : List UInt8} {entry frame : Frame} {s t u : Session} {index p : Nat} {i : Instruction}
  {next : Option Frame}

/-- What a look does, and what it leaves for the next instruction. -/
theorem Passes.looksAt (hp : setup.Prepared code) (hentry : entry.Fits setup)
    (h : Passes setup entry (some (index, frame)) s) (hi : setup.body.get? index = some i)
    (hone : s.interpretOne setup i frame = .ok (t, next)) :
    Session.LooksAt setup s i frame t ∧ next = i.onward (setup.context i.position) frame := by
  obtain ⟨hwf, -, hfits, -⟩ := h.keeps hp hentry
  exact Session.interpretOne_spec hp hwf hfits hi hone

/-- After a look, heads are the places that are looked at from their own state. -/
theorem Passes.isHead_iff (hp : setup.Prepared code) (hentry : entry.Fits setup)
    (h : Passes setup entry (some (index, frame)) s) (hi : setup.body.get? index = some i)
    (hone : s.interpretOne setup i frame = .ok (t, next)) : setup.IsHead p ↔ t.isMerged setup p = true := by
  obtain ⟨-, ⟨hwf, hzero, -⟩, -⟩ := (h.keeps hp hentry).look hp h hi hone
  exact (Session.isMerged_iff hwf hzero).symm

/-- What is left for a place that is looked at from its own state is delivered there. -/
theorem Passes.merged {g : Frame} (hp : setup.Prepared code) (hentry : entry.Fits setup)
    (h : Passes setup entry (some (index, frame)) s) (hi : setup.body.get? index = some i)
    (hone : s.interpretOne setup i frame = .ok (t, some g)) (hmerged : t.isMerged setup p = true)
    (hmerge : t.mergeInto setup p g = .ok u) : t.Step u ∧ u.WellFormed setup ∧ u.Delivered p g := by
  obtain ⟨-, ⟨hwf, -⟩, hfits⟩ := (h.keeps hp hentry).look hp h hi hone
  exact Session.mergeInto_spec hwf (hfits g rfl) ((h.isHead_iff hp hentry hi hone).mpr hmerged) hmerge

end Look

end Inference

/-! ## The rest of the analysis -/

namespace Session

/-- What is known in `s` of frames, of subroutines and of how far `ret` instructions return is known in `t`. -/
structure Remembers (s t : Session) : Prop where
  states : ∀ p st, s.states.get? p = some st → ∃ st', t.states.get? p = some st' ∧ st.frame.Below st'.frame
  registry : s.registry.Grows t.registry
  framesPopped : ∀ p popped, s.framesPopped.get? p = some popped → t.framesPopped.get? p = some popped

theorem Remembers.trans {u : Session} (h : s.Remembers t) (k : t.Remembers u) : s.Remembers u where
  states p st hst := by
    obtain ⟨st', hst', hbelow⟩ := h.states p st hst
    obtain ⟨st'', hst'', hbelow'⟩ := k.states p st' hst'
    exact ⟨st'', hst'', hbelow.trans hbelow'⟩
  registry := h.registry.trans k.registry
  framesPopped p popped hpopped := k.framesPopped p popped (h.framesPopped p popped hpopped)

theorem Learns.remembers (h : s.Learns t) : s.Remembers t := ⟨h.states, h.registry, h.framesPopped⟩
variable {setup : Setup} {origin index : Nat} {i : Instruction} {frame : Frame} {s t : Session}
/-- Looking at the code from an instruction on that is not looked at from its own state. -/
theorem interpret_eq_ok (hi : setup.body.get? index = some i)
    (hlooks : ¬ (i.position ≠ origin && s.isMerged setup i.position) = true)
    (h : interpret setup origin index frame s = .ok t) :
    ∃ u next, s.interpretOne setup i frame = .ok (u, next) ∧
      match next with
      | none => u = t
      | some g => index + 1 < setup.body.size ∧ interpret setup origin (index + 1) g u = .ok t := by
  rw [interpret_some hi, if_neg hlooks] at h
  split at h
  · simp at h
  · rename_i u hone
    exact ⟨u, none, hone, Except.ok.inj h⟩
  · rename_i u g hone
    split at h
    · simp [reject] at h
    · rename_i hsize
      exact ⟨u, some g, hone, by omega, h⟩

/-- Coming to an instruction that is looked at from its own state. -/
theorem interpret_of_merged (hi : setup.body.get? index = some i)
    (hmerged : (i.position ≠ origin && s.isMerged setup i.position) = true) :
    interpret setup origin index frame s = s.mergeInto setup i.position frame := by
  rw [interpret_some hi, if_pos hmerged]

/-- The first of the rounds that are left. -/
theorem run_eq_ok {rest : List Nat} (hwork : s.worklist = position :: rest)
    (h : s.run setup = .ok t) : ∃ u, { s with worklist := rest }.round setup position = .ok u ∧ u.run setup = .ok t := by
  rw [run_cons hwork] at h
  split at h
  · simp at h
  · rename_i u hround
    exact ⟨u, hround, h⟩

end Session

namespace Inference

variable {setup : Setup} {code : List UInt8} {entry frame : Frame} {look : Option (Nat × Frame)} {s t u : Session}
  {index : Nat} {i : Instruction}

/-- From a session that it passes, the analysis goes on to the session `s`. -/
def EndsWith (setup : Setup) (s : Session) : Option (Nat × Frame) → Session → Prop
  | none, u => u.run setup = .ok s
  | some (index, frame), u => ∃ origin i t, setup.body.get? index = some i ∧ origin ≤ i.position ∧
      ¬ (i.position ≠ origin && u.isMerged setup i.position) = true ∧
      Session.interpret setup origin index frame u = .ok t ∧ t.run setup = .ok s

/-- A round that begins at a place goes on to the end. -/
theorem endsWith_interpretAt (hp : setup.Prepared code)
    (hindex : setup.body.indexOf? position = some index) (h : u.interpretAt setup position frame = .ok t)
    (hrun : t.run setup = .ok s) : EndsWith setup s (some (index, frame)) u := by
  obtain ⟨i, hi, hposition⟩ := hp.tiles.indexOf?_eq_some_iff.mp hindex
  unfold Session.interpretAt at h
  simp only [hindex] at h
  exact ⟨position, i, t, hi, by omega, by simp [hposition], h, hrun⟩

/-- The look that the analysis goes on with goes through, and the analysis goes on with what it leaves. -/
theorem EndsWith.goesOn (hp : setup.Prepared code) (h : EndsWith setup s (some (index, frame)) u)
    (hi : setup.body.get? index = some i) : ∃ t next, u.interpretOne setup i frame = .ok (t, next) ∧
      match next with
      | none => EndsWith setup s none t
      | some g => ∃ i', setup.body.get? (index + 1) = some i' ∧
          (t.isMerged setup i'.position = true →
            ∃ w, t.mergeInto setup i'.position g = .ok w ∧ EndsWith setup s none w) ∧
          (t.isMerged setup i'.position = false → EndsWith setup s (some (index + 1, g)) t) := by
  obtain ⟨origin, j, w, hj, horigin, hlooks, hinterpret, hrun⟩ := h
  obtain rfl := Option.some.inj (hi.symm.trans hj)
  obtain ⟨t, next, hone, hrest⟩ := Session.interpret_eq_ok hi hlooks hinterpret
  refine ⟨t, next, hone, ?_⟩
  cases next with
  | none =>
    obtain rfl : t = w := hrest
    exact hrun
  | some g =>
    obtain ⟨hsize, hrest⟩ := hrest
    obtain ⟨i', hi'⟩ := setup.body.exists_get? (index + 1) hsize
    -- the next place lies behind the one where the round began
    have hlater := hp.tiles.position_lt (Nat.lt_succ_self index) hi hi'
    have horigin' : i'.position ≠ origin := by omega
    refine ⟨i', hi', ?_, ?_⟩
    · intro hmerged
      rw [Session.interpret_of_merged hi' (by simp [horigin', hmerged])] at hrest
      exact ⟨w, hrest, hrun⟩
    · intro hmerged
      exact ⟨origin, i', w, hi', by omega, by simp [hmerged], hrest, hrun⟩

/-- From every session that is passed the analysis goes on to its end. -/
theorem Passes.endsWith (hp : setup.Prepared code) (hanalyse : analyse setup entry = .ok s)
    (h : Passes setup entry look u) : EndsWith setup s look u := by
  -- what is passed next is what the analysis computes next, so the two agree at every step
  induction h with
  | enter h =>
    unfold analyse at hanalyse
    obtain ⟨first, hfirst, hrun⟩ := bind_eq_ok.mp hanalyse
    obtain rfl := Except.ok.inj (h.symm.trans hfirst)
    exact hrun
  | state _ hwork hst hindex ih =>
    obtain ⟨t, hround, hrun⟩ := Session.run_eq_ok hwork ih
    simp only [Session.round, hst] at hround
    exact endsWith_interpretAt hp hindex hround hrun
  | ret _ hwork hst hframe hindex ih =>
    obtain ⟨t, hround, hrun⟩ := Session.run_eq_ok hwork ih
    simp only [Session.round, hst, hframe] at hround
    exact endsWith_interpretAt hp hindex hround hrun
  | nothing _ hwork hst hframe ih =>
    obtain ⟨t, hround, hrun⟩ := Session.run_eq_ok hwork ih
    simp only [Session.round, hst, hframe] at hround
    obtain rfl := Except.ok.inj hround
    exact hrun
  | left _ hi hone ih =>
    obtain ⟨t, next, hone', hrest⟩ := ih.goesOn hp hi
    obtain ⟨rfl, rfl⟩ := Prod.mk.inj (Except.ok.inj (hone.symm.trans hone'))
    exact hrest
  | met _ hi hone hi' hmerged hmerge ih =>
    obtain ⟨t, next, hone', hrest⟩ := ih.goesOn hp hi
    obtain ⟨rfl, rfl⟩ := Prod.mk.inj (Except.ok.inj (hone.symm.trans hone'))
    obtain ⟨j, hj, hmet, -⟩ := hrest
    obtain rfl := Option.some.inj (hi'.symm.trans hj)
    obtain ⟨w, hmerge', hend⟩ := hmet hmerged
    obtain rfl := Except.ok.inj (hmerge.symm.trans hmerge')
    exact hend
  | on _ hi hone hi' hmerged ih =>
    obtain ⟨t, next, hone', hrest⟩ := ih.goesOn hp hi
    obtain ⟨rfl, rfl⟩ := Prod.mk.inj (Except.ok.inj (hone.symm.trans hone'))
    obtain ⟨j, hj, -, hon⟩ := hrest
    obtain rfl := Option.some.inj (hi'.symm.trans hj)
    exact hon hmerged

theorem Passes.remembers_interpret {origin : Nat} (hp : setup.Prepared code) (hentry : entry.Fits setup)
    (h : Passes setup entry (some (index, frame)) u) (hi : setup.body.get? index = some i)
    (horigin : origin ≤ i.position) (hinterpret : Session.interpret setup origin index frame u = .ok t) :
    u.Remembers t := by
  obtain ⟨hwf, hzero, hfits, -⟩ := h.keeps hp hentry
  rcases Session.interpret_spec hp hwf hzero hfits hi horigin hinterpret with ⟨-, ⟨hstep, -⟩, -⟩ | ⟨-, hinterprets⟩
  · exact hstep.toLearns.remembers
  · exact hinterprets.grows.toLearns.remembers

theorem Passes.remembers_run (hp : setup.Prepared code) (hentry : entry.Fits setup) (h : Passes setup entry none u)
    (hrun : u.run setup = .ok s) : u.Remembers s := by
  -- the induction is on the rounds that are left
  fun_induction Session.run setup u with
  | case1 u hwork =>
    obtain rfl := Except.ok.inj hrun
    exact (Session.Grows.refl u).toLearns.remembers
  | case2 => simp at hrun
  | case3 u position rest hwork t hround ih =>
    refine Session.Remembers.trans ?_ (ih (passes_round hp h hwork hround) hrun)
    rcases round_cases hp h hwork hround with
      ⟨index, i, frame, w, hi, hposition, hlearns, hfirst, hinterpret⟩ | ⟨hlearns, -⟩
    · exact hlearns.remembers.trans (hfirst.remembers_interpret hp hentry hi (by omega) hinterpret)
    · exact hlearns.remembers

/-- What is known on the way is known at the end. -/
theorem Passes.remembers (hp : setup.Prepared code) (hentry : entry.Fits setup) (hanalyse : analyse setup entry = .ok s)
    (h : Passes setup entry look u) : u.Remembers s := by
  have hend := h.endsWith hp hanalyse
  match look with
  | none => exact h.remembers_run hp hentry hend
  | some (index, frame) =>
    obtain ⟨origin, i, t, hi, horigin, hlooks, hinterpret, hrun⟩ := hend
    refine (h.remembers_interpret hp hentry hi horigin hinterpret).trans ?_
    exact (passes_interpret hp h hi horigin hlooks hinterpret).remembers_run hp hentry hrun

/-- Every look of an analysis that ends goes through, and what is then known is known at the end. -/
theorem Passes.goesThrough (hp : setup.Prepared code) (hentry : entry.Fits setup) (hanalyse : analyse setup entry = .ok s)
    (h : Passes setup entry (some (index, frame)) u) (hi : setup.body.get? index = some i) :
    ∃ t next, u.interpretOne setup i frame = .ok (t, next) ∧ t.Remembers s := by
  obtain ⟨t, next, hone, hrest⟩ := (h.endsWith hp hanalyse).goesOn hp hi
  refine ⟨t, next, hone, ?_⟩
  match next with
  | none => exact (Passes.left h hi hone).remembers hp hentry hanalyse
  | some g =>
    obtain ⟨i', hi', hmet, -⟩ := hrest
    cases hmerged : t.isMerged setup i'.position with
    | false => exact (Passes.on h hi hone hi' hmerged).remembers hp hentry hanalyse
    | true =>
      obtain ⟨w, hmerge, -⟩ := hmet hmerged
      obtain ⟨hstep, -⟩ := h.merged hp hentry hi hone hmerged hmerge
      exact hstep.toLearns.remembers.trans ((Passes.met h hi hone hi' hmerged hmerge).remembers hp hentry hanalyse)

/-- What holds while nothing is noted of subroutines and stores, and is kept by every look, holds on the whole way. -/
theorem Passes.noted {P : Registry → PositionSet → Prop} (hempty : ∀ m n, P (.empty m) (.empty n))
    (hlook : ∀ {index i frame s t next}, Passes setup entry (some (index, frame)) s → setup.body.get? index = some i →
      s.interpretOne setup i frame = .ok (t, next) → P s.registry s.returnStores → P t.registry t.returnStores)
    (h : Passes setup entry look s) : P s.registry s.returnStores := by
  induction h with
  | enter h =>
    rw [Session.mergeInto_eq h]
    exact hempty _ _
  | state _ _ _ _ ih => exact ih
  | ret _ _ _ _ _ ih => exact ih
  | nothing _ _ _ _ ih => exact ih
  | left hpasses hi hone ih => exact hlook hpasses hi hone ih
  | met hpasses hi hone _ _ hmerge ih =>
    have hkept := hlook hpasses hi hone ih
    rw [Session.mergeInto_eq hmerge]
    exact hkept
  | on hpasses hi hone _ _ ih => exact hlook hpasses hi hone ih

end Inference

/-! ## The last look at every instruction -/

namespace Session

/-- Every place with a state has to be looked at, or was looked at with the frame of its state. -/
def Seen (setup : Setup) (entry : Frame) (pending : List Nat) (s : Session) : Prop :=
  ∀ p st, s.states.get? p = some st → p ∈ pending ∨ ∃ (index : Nat) (u : Session),
    setup.body.indexOf? p = some index ∧ Inference.Passes setup entry (some (index, st.frame)) u

theorem Seen.mono (h : s.Seen setup entry s.worklist) (hgrows : s.Grows t) : t.Seen setup entry t.worklist := by
  intro p st hst
  rcases hgrows.changed p st hst with hmem | ⟨st', hst', hsame⟩
  · exact Or.inl hmem
  · rw [← hsame]
    exact (h p st' hst').imp_left fun hmem => hgrows.worklist hmem

end Session

namespace Inference

variable {setup : Setup} {code : List UInt8} {entry : Frame} {look : Option (Nat × Frame)} {s : Session}

theorem Passes.seen (hp : setup.Prepared code) (hentry : entry.Fits setup) (h : Passes setup entry look s) :
    s.Seen setup entry s.worklist := by
  induction h with
  | enter h =>
    obtain ⟨hstep, -⟩ := Session.mergeInto_spec (wellFormed_start setup) hentry (Or.inr rfl) h
    refine Session.Seen.mono ?_ hstep.toGrows
    intro p st hst
    simp [Session.start] at hst
  | @state s position index rest st hpasses hwork hst hindex ih =>
    intro p st' hst'
    have hbound := PositionMap.lt_bound_of_get? hst
    by_cases hposition : position = p
    · -- this is the place that is looked at now, and with the frame of its state
      subst hposition
      rw [PositionMap.get?_insert_self _ hbound] at hst'
      obtain rfl := Option.some.inj hst'
      have hlook := Passes.state hpasses hwork hst hindex
      exact Or.inr ⟨index, _, hindex, hlook⟩
    · rw [PositionMap.get?_insert_ne _ _ hposition] at hst'
      have hseen := ih p st' hst'
      rw [hwork] at hseen
      exact hseen.imp_left fun hmem => List.mem_of_ne_of_mem (Ne.symm hposition) hmem
  | @ret s position index rest frame _ hwork hst _ _ ih =>
    intro p st' hst'
    have hseen := ih p st' hst'
    rw [hwork] at hseen
    -- the place that is taken off has no state
    refine hseen.imp_left fun hmem => List.mem_of_ne_of_mem ?_ hmem
    rintro rfl
    rw [hst] at hst'
    simp at hst'
  | @nothing s position rest _ hwork hst _ ih =>
    intro p st' hst'
    have hseen := ih p st' hst'
    rw [hwork] at hseen
    refine hseen.imp_left fun hmem => List.mem_of_ne_of_mem ?_ hmem
    rintro rfl
    rw [hst] at hst'
    simp at hst'
  | left hpasses hi hone ih => exact ih.mono (hpasses.looksAt hp hentry hi hone).1.grows
  | met hpasses hi hone hi' hmerged hmerge ih =>
    obtain ⟨hlooks, -⟩ := hpasses.looksAt hp hentry hi hone
    obtain ⟨hstep, -⟩ := hpasses.merged hp hentry hi hone hmerged hmerge
    exact ih.mono (hlooks.grows.trans hstep.toGrows)
  | on hpasses hi hone _ _ ih => exact ih.mono (hpasses.looksAt hp hentry hi hone).1.grows

end Inference

/-- The analysis of a method looks at the instruction with an index with a frame, in a session. -/
def Method.Looks (method : Method) (index : Nat) (frame : Frame) (s : Session) : Prop :=
  ∃ setup entry, Inference.prepare false method = .ok (setup, entry) ∧
    Inference.Passes setup entry (some (index, frame)) s

namespace Settled

variable {method : Method} {v : Verified} {setup : Setup} {s : Session}

/-- The subroutine of a `ret` that was looked at returned to every call of it that was looked at.  The locals taken as
accessed are those known to be so at the last look at the `ret`. -/
theorem returned (h : Settled method v setup s) {jsrIndex entry : Nat} {jsr : Instruction} {slot : UInt16}
    {before : Frame} (hi : v.body.get? index = some i) (hframe : v.frameBefore? method index = some frame)
    (hflow : i.flow = .ret slot) (haddress : frame.locals[slot.toNat]? = some (.returnAddress entry))
    (hjsr : v.body.get? jsrIndex = some jsr) (hbefore : v.frameBefore? method jsrIndex = some before)
    (hcall : jsr.flow = .jsr entry) :
    ∃ u sub site, method.Looks index frame u ∧ u.registry.get? entry = some sub ∧
      (∀ k ∈ sub.accessed, ∃ sub', s.registry.get? entry = some sub' ∧ k ∈ sub'.accessed) ∧
      s.calls.get? jsr.position = some site ∧ before.LocallyBelow site.frame ∧
      s.jsrRets.get? jsr.position = some i.position ∧
      s.Delivered jsr.next (Session.continuationFrame site.frame frame slot.toNat sub.isAccessed) := by
  obtain ⟨start, -, hstart, hprepare, hanalyse⟩ := h.explores
  have hret := (h.handled hi hframe).flow
  have hjsr' := (h.handled hjsr hbefore).flow
  unfold Session.FlowHandled at hret hjsr'
  simp only [hflow] at hret
  simp only [hcall] at hjsr'
  obtain ⟨-, -, hrecalls⟩ := (Inference.passes_analyse h.prepared hanalyse).keeps h.prepared hstart
  obtain ⟨index', i', slot', hi', hposition, hflow', hdone⟩ := hrecalls i.position frame hret.1
  rw [h.idle] at hdone
  obtain ⟨u, callee, sub, hpasses, hsub, hleft, hreturned⟩ := hdone.resolve_left (by simp)
  rw [← h.body_eq] at hi'
  obtain rfl := h.tiles.index_eq hi hi' hposition.symm
  obtain rfl := Option.some.inj (hi.symm.trans hi')
  obtain rfl := Flow.ret.inj (hflow.symm.trans hflow')
  obtain rfl : entry = callee := by
    have heq := Option.some.inj (haddress.symm.trans hleft.address)
    exact VType.returnAddress.inj heq
  obtain ⟨site, hsite, hentry', hbelow⟩ := hjsr'.call
  obtain ⟨hbound, caller, hcaller, hdelivered⟩ := hreturned.calls jsr.position site hsite hentry'
  rw [← h.body_eq] at hcaller
  obtain ⟨hposition', index', hindex'⟩ := h.tiles.startingAt?_eq_some_iff.mp hcaller
  obtain rfl := h.tiles.index_eq hindex' hjsr hposition'
  obtain rfl := Option.some.inj (hindex'.symm.trans hjsr)
  refine ⟨u, sub, site, ⟨setup, start, hprepare, hpasses⟩, hsub, ?_, hsite, hbelow, hbound, hdelivered⟩
  intro k hk
  exact hreturned.accessed k (List.contains_iff_mem.mpr hk)

end Settled

end Bytecode
