import Bytecode.Proofs.Accounts
import Bytecode.Proofs.Typing

/-!
# Inference and typing

Code without subroutines is accepted exactly if it can be typed:

* the frames that inference ends with are a typing (`Settled.typing`);
* with any typing, the states stay below its frames in every round, so that no merge and no instruction fails
  (`Session.Bounded`, `Session.run_bounded`);
* `Method.accepted_iff` puts the two together;
* `Settled.hasSubroutines_eq_false`: without a `jsr` no subroutine is found.
-/

namespace Bytecode

variable {setup : Setup} {i : Instruction} {f g frame next : Frame} {ts us : List VType} {index position : Nat}

namespace Setup

/-- The place of an instruction, by positions. -/
def placeOf (setup : Setup) (i : Instruction) : Place where
  flow := i.flow
  stop := i.flags.stop
  store := i.flags.store
  context := setup.context i.position
  next := i.next
  handles type target := ∃ h ∈ setup.handlers, h.covers i.position = true ∧ h.catchType = type ∧ h.target = target

/-- The places of the code, by positions. -/
def IsPlace (setup : Setup) (position : Nat) (p : Place) : Prop :=
  ∃ (index : Nat) (i : Instruction), setup.body.get? index = some i ∧ i.position = position ∧ p = setup.placeOf i

end Setup

/-! ## What inference ends with -/

namespace Session

variable {setup : Setup} {pending : List Nat} {s : Session} {i : Instruction} {frame : Frame}

theorem Handled.result_isSome (h : Handled setup pending s i frame) (hjsr : ∀ target, i.flow ≠ .jsr target)
    (hret : ∀ slot, i.flow ≠ .ret slot) : ((setup.placeOf i).result frame).isSome := by
  have hflow := h.flow
  unfold FlowHandled at hflow
  unfold Place.result
  simp only [Setup.placeOf]
  cases hcase : i.flow with
  | plain op =>
    simp only [hcase] at hflow
    obtain ⟨after, hafter, -⟩ := hflow
    exact Option.isSome_of_eq_some (toOption_eq_some.mpr hafter)
  | branch kind target =>
    simp only [hcase] at hflow
    obtain ⟨after, hafter, -⟩ := hflow
    exact Option.isSome_of_eq_some (toOption_eq_some.mpr hafter)
  | select default cases =>
    simp only [hcase] at hflow
    obtain ⟨after, hafter, -⟩ := hflow
    exact Option.isSome_of_eq_some (toOption_eq_some.mpr hafter)
  | jsr target => exact absurd hcase (hjsr target)
  | ret slot => exact absurd hcase (hret slot)

/-- Handlers that were reached can be entered. -/
theorem HandlersReached.caught_isSome {type : VType} {n : Nat} (h : s.HandlersReached setup i.position frame)
    (hhandles : (setup.placeOf i).handles type n) : ((setup.placeOf i).caught frame type).isSome := by
  obtain ⟨handler, hmem, hcovers, rfl, rfl⟩ := hhandles
  obtain ⟨caught, hcaught, -⟩ := h handler hmem hcovers
  exact Option.isSome_of_eq_some (toOption_eq_some.mpr hcaught)

/-- An instruction that was handled goes through, if it does not call or leave a subroutine. -/
theorem Handled.runs (h : Handled setup pending s i frame) (hjsr : ∀ target, i.flow ≠ .jsr target)
    (hret : ∀ slot, i.flow ≠ .ret slot) : (setup.placeOf i).Runs frame :=
  ⟨h.result_isSome hjsr hret, fun _ _ => h.handlers.caught_isSome⟩

/-- What an instruction passes on to the next one. -/
theorem onward_eq_some_iff : i.onward (setup.context i.position) frame = some next ↔
    (setup.placeOf i).fallsThrough = true ∧ (setup.placeOf i).result frame = some next := by
  unfold Place.fallsThrough Place.result Instruction.onward
  simp only [Setup.placeOf]
  cases hcase : i.flow with
  | plain op =>
    cases hstop : i.flags.stop with
    | true => simp
    | false => simp
  | branch kind target =>
    by_cases hgoto : kind = .goto
    · simp [hgoto]
    · simp [hgoto]
  | select default cases => simp
  | jsr target => simp
  | ret slot => simp

/-- Where else control goes on from an instruction that was handled, the frame has been delivered. -/
theorem Handled.delivered_of_jump {n : Nat} (h : Handled setup pending s i frame)
    (htarget : n ∈ (setup.placeOf i).flow.targets) (hresult : (setup.placeOf i).result frame = some next) :
    s.Delivered n next := by
  have hflow := h.flow
  unfold FlowHandled at hflow
  unfold Place.result at hresult
  simp only [Setup.placeOf] at htarget hresult
  cases hcase : i.flow with
  | plain op => simp [hcase, Flow.targets] at htarget
  | branch kind target =>
    simp only [hcase] at hflow hresult
    obtain ⟨after, hafter, hdelivered⟩ := hflow
    obtain rfl := Except.ok.inj (hafter.symm.trans (toOption_eq_some.mp hresult))
    obtain rfl : n = target := by simpa [hcase, Flow.targets] using htarget
    exact hdelivered
  | select default cases =>
    simp only [hcase] at hflow hresult
    obtain ⟨after, hafter, hdelivered⟩ := hflow
    obtain rfl := Except.ok.inj (hafter.symm.trans (toOption_eq_some.mp hresult))
    rw [hcase] at htarget
    exact hdelivered n htarget
  | jsr target => simp [hcase] at hresult
  | ret slot => simp [hcase] at hresult

theorem HandlersReached.delivered {n : Nat} {caught : Frame} {type : VType}
    (h : s.HandlersReached setup i.position frame) (hhandles : (setup.placeOf i).handles type n)
    (hcaught : (setup.placeOf i).caught frame type = some caught) : s.Delivered n caught := by
  obtain ⟨handler, hmem, hcovers, rfl, rfl⟩ := hhandles
  obtain ⟨caught', hcaught', hdelivered⟩ := h handler hmem hcovers
  obtain rfl := Except.ok.inj (hcaught'.symm.trans (toOption_eq_some.mp hcaught))
  exact hdelivered

/-- An instruction that writes a local brings what it leaves to the handlers too. -/
theorem Handled.handlers_after (h : Handled setup pending s i frame)
    (hstore : (setup.placeOf i).storesLocal = true) (hresult : (setup.placeOf i).result frame = some next) :
    s.HandlersReached setup i.position next := by
  have hflow := h.flow
  unfold FlowHandled at hflow
  unfold Place.storesLocal at hstore
  unfold Place.result at hresult
  simp only [Setup.placeOf] at hstore hresult
  cases hcase : i.flow with
  | plain op =>
    simp only [hcase] at hflow hresult hstore
    obtain ⟨after, hafter, hreached, -⟩ := hflow
    obtain rfl := Except.ok.inj (hafter.symm.trans (toOption_eq_some.mp hresult))
    exact hreached hstore
  | branch kind target => simp [hcase] at hstore
  | select default cases => simp [hcase] at hstore
  | jsr target => simp [hcase] at hstore
  | ret slot => simp [hcase] at hstore

end Session

/-- The frame that inference ends with at a position. -/
def Verified.typeAt? (v : Verified) (method : Method) (position : Nat) : Option Frame :=
  (v.body.indexOf? position).bind (v.frameBefore? method)

namespace Settled

variable {method : Method} {v : Verified} {setup : Setup} {s : Session} {index : Nat} {i : Instruction}

theorem typeAt?_eq (h : Settled method v setup s) (hi : v.body.get? index = some i) :
    v.typeAt? method i.position = v.frameBefore? method index := by
  unfold Verified.typeAt?
  rw [h.tiles.indexOf?_eq_some_iff.mpr ⟨i, hi, rfl⟩, Option.bind_some]

/-- What is delivered to a place is below the frame there. -/
theorem typeAt?_of_delivered (h : Settled method v setup s) {n : Nat} (hdelivered : s.Delivered n g) :
    ∃ g', v.typeAt? method n = some g' ∧ g.Below g' := by
  obtain ⟨st, hst, hbelow⟩ := hdelivered
  obtain ⟨index, i, hi, rfl⟩ := h.exists_of_state hst
  rw [h.typeAt?_eq hi, h.frameBefore?_of_state hi hst]
  exact ⟨st.frame, rfl, hbelow⟩

/-- The frames that inference ends with type the code. -/
theorem typing (h : Settled method v setup s) (hplain : setup.IsPlain) {entry : Frame} (hentry : s.Delivered 0 entry) :
    Typing setup.IsPlace 0 entry (v.typeAt? method) := by
  refine ⟨h.typeAt?_of_delivered hentry, ?_⟩
  intro n f hf
  obtain ⟨index, hindex, hframe⟩ := Option.bind_eq_some_iff.mp hf
  obtain ⟨i, hi, rfl⟩ := h.tiles.indexOf?_eq_some_iff.mp hindex
  have hi' : setup.body.get? index = some i := by
    rw [← h.body_eq]
    exact hi
  have hhandled := h.handled hi hframe
  refine ⟨setup.placeOf i, ⟨index, i, hi', rfl, rfl⟩, hhandled.fits.values hplain,
    hhandled.runs (fun target => hplain.jsr index i target hi') (fun slot => hplain.ret index i slot hi'), ?_⟩
  intro m g hgoes
  cases hgoes with
  | falls hfalls hresult =>
    have honward := Session.onward_eq_some_iff.mpr ⟨hfalls, hresult⟩
    obtain ⟨next, i', after, hnext, hi'', hafter, hbelow⟩ :=
      h.onward hi hframe (Instruction.runsOn_of_onward honward)
    rw [h.context_eq, hnext] at honward
    obtain rfl := Option.some.inj honward
    refine ⟨after, ?_, hbelow⟩
    show v.typeAt? method i.next = some after
    rw [← h.tiles.position_succ hi hi'', h.typeAt?_eq hi'', hafter]
  | jumps htarget hresult => exact h.typeAt?_of_delivered (hhandled.delivered_of_jump htarget hresult)
  | throws hhandles hcaught => exact h.typeAt?_of_delivered (hhandled.handlers.delivered hhandles hcaught)
  | throwsAfter hstore hresult hhandles hcaught =>
    exact h.typeAt?_of_delivered ((hhandled.handlers_after hstore hresult).delivered hhandles hcaught)

end Settled

/-! ## Merging below a bound -/

namespace Frame

theorem joinLocals_le {ws : List VType} (ht : List.Forall₂ (· ≤ ·) ts ws) (hu : List.Forall₂ (· ≤ ·) us ws) :
    List.Forall₂ (· ≤ ·) (joinLocals ts us) ws := by
  induction ht generalizing us with
  | nil => exact .nil
  | cons hle _ ih =>
    cases hu with
    | cons hle' hu => exact .cons (sup_le hle hle') (ih hu)

theorem getElem?_joinLocals (hlength : ts.length = us.length) {k : Nat} {t : VType}
    (h : (joinLocals ts us)[k]? = some t) : ∃ a b, ts[k]? = some a ∧ us[k]? = some b ∧ t = a.join b := by
  induction ts generalizing us k with
  | nil => simp [joinLocals] at h
  | cons a ts ih =>
    cases us with
    | nil => simp at hlength
    | cons b us =>
      cases k with
      | zero => exact ⟨a, b, rfl, rfl, (Option.some.inj h).symm⟩
      | succ k => exact ih (by simpa using hlength) h

theorem length_joinLocals (ts us : List VType) : (joinLocals ts us).length = ts.length := by
  induction ts generalizing us with
  | nil => cases us <;> rfl
  | cons t ts ih =>
    cases us with
    | nil => rfl
    | cons u us => simp [joinLocals, ih]

/-- Values of two words that are whole in both stay whole. -/
theorem paired_joinLocals (ht : Exec.Paired ts) (hu : Exec.Paired us) (hlength : ts.length = us.length) :
    Exec.Paired (joinLocals ts us) := by
  intro k t hk hwide
  obtain ⟨a, b, ha, hb, rfl⟩ := getElem?_joinLocals hlength hk
  have hsame : a = a.join b ∧ b = a.join b := by
    have hnumeric : ∃ n, a.join b = .ofNumeric n := by
      cases hjoin : a.join b with
      | long => exact ⟨.long, rfl⟩
      | double => exact ⟨.double, rfl⟩
      | _ => simp [hjoin, width] at hwide
    obtain ⟨n, hn⟩ := hnumeric
    have hleft : a ≤ .ofNumeric n := hn ▸ le_sup_left
    have hright : b ≤ .ofNumeric n := hn ▸ le_sup_right
    rw [hn]
    exact ⟨VType.eq_of_le_ofNumeric hleft, VType.eq_of_le_ofNumeric hright⟩
  have htop := ht k a ha (hsame.1 ▸ hwide)
  have htop' := hu k b hb (hsame.2 ▸ hwide)
  have hlt : k + 1 < (joinLocals ts us).length := by
    rw [length_joinLocals]
    exact (List.getElem?_eq_some_iff.mp htop).1
  have hget := List.getElem?_eq_getElem hlt
  obtain ⟨a', b', ha', hb', heq⟩ := getElem?_joinLocals hlength hget
  obtain rfl := Option.some.inj (htop.symm.trans ha')
  obtain rfl := Option.some.inj (htop'.symm.trans hb')
  rw [hget, heq]
  rfl

theorem normalized_of_paired (h : Exec.Paired ts) : normalized ts = ts := by
  induction ts with
  | nil => rfl
  | cons t ts ih =>
    have hrest : Exec.Paired ts := by
      intro k u hk hwide
      exact h (k + 1) u hk hwide
    unfold normalized
    rw [ih hrest, if_neg]
    rintro ⟨hwide, hhead⟩
    have htop := h 0 t rfl hwide
    rw [List.getElem?_cons_succ, ← List.head?_eq_getElem?] at htop
    exact hhead htop

theorem joinStacks_of_refines {ws : List VType} (ht : List.Forall₂ VType.Refines ts ws)
    (hu : List.Forall₂ VType.Refines us ws) (hw : ∀ w ∈ ws, w ≠ .top) :
    ∃ joined, joinStacks ts us = .ok joined ∧ List.Forall₂ VType.Refines joined ws := by
  induction ht generalizing us with
  | nil =>
    cases hu
    exact ⟨[], rfl, .nil⟩
  | @cons t w ts ws hle _ ih =>
    cases hu with
    | @cons u _ us _ hle' hu =>
      obtain ⟨rest, hrest, hbelow⟩ := ih hu fun w hmem => hw w (List.mem_cons_of_mem _ hmem)
      have hne := hw w (List.mem_cons_self ..)
      have hjoin : t.join u ≤ w := sup_le hle.1 hle'.1
      refine ⟨t.join u :: rest, ?_, .cons (VType.refines_of_le hjoin hne) hbelow⟩
      unfold joinStacks
      rw [hrest]
      have htop : t.join u ≠ .top := by
        intro htop
        rw [htop] at hjoin
        exact hne (VType.eq_top_of_top_le hjoin)
      simp [bind, Except.bind, htop]

/-- Frames below another, outside of all subroutines, merge to one below it. -/
theorem merge_of_below {bound : Frame} (hf : f.Below bound) (hg : g.Below bound) (hvalues : bound.HasValues)
    (hpaired : Exec.Paired f.locals) (hpaired' : Exec.Paired g.locals) (hroot : f.nesting = []) (hroot' : g.nesting = []) :
    ∃ merged, f.merge g = .ok merged ∧ merged.Below bound ∧ merged.nesting = [] := by
  obtain ⟨stack, hstack, hbelow⟩ := joinStacks_of_refines hf.stack hg.stack fun w hw => (hvalues w hw).1
  have hlength : f.stack.length = g.stack.length := by rw [hf.stack.length_eq, hg.stack.length_eq]
  have hheight : f.height = g.height := by rw [height_eq_of_refines hf.stack, height_eq_of_refines hg.stack]
  have hlocals : f.locals.length = g.locals.length := by rw [hf.locals.length_eq, hg.locals.length_eq]
  have hnesting : (f.absorb g).nesting = [] := by
    show f.nesting.merge g.nesting = []
    rw [hroot, hroot']
    rfl
  refine ⟨{ f.absorb g with stack }, ?_, ⟨⟨?_, ?_⟩, hbelow⟩, hnesting⟩
  · unfold merge
    rw [if_neg (by simp [hlength, hheight]), hstack]
  · show List.Forall₂ (· ≤ ·) (normalized (joinLocals f.locals g.locals)) bound.locals
    rw [normalized_of_paired (paired_joinLocals hpaired hpaired' hlocals)]
    exact joinLocals_le hf.locals hg.locals
  · show (f.absorb g).nesting.Within bound.nesting
    rw [hnesting, ← hroot]
    exact hf.nesting

end Frame

/-! ## Rounds below a typing -/

namespace Frame

/-- A frame outside of all subroutines, below the one that is given to a place. -/
structure Bounded (setup : Setup) (types : Nat → Option Frame) (position : Nat) (f : Frame) : Prop where
  fits : f.Fits setup
  root : f.nesting = []
  below : ∃ bound, types position = some bound ∧ f.Below bound

end Frame

/-- All states are below the frames that are given to their places. -/
structure Session.Bounded (setup : Setup) (types : Nat → Option Frame) (s : Session) : Prop where
  wellFormed : s.WellFormed setup
  states : ∀ p st, s.states.get? p = some st → st.frame.Bounded setup types p

namespace Typing

variable {setup : Setup} {code : List UInt8} {entry : Frame} {types : Nat → Option Frame}

theorem hasValues (h : Typing setup.IsPlace 0 entry types) {bound : Frame}
    (hbound : types position = some bound) : bound.HasValues := by
  obtain ⟨_, -, hvalues, -⟩ := h.place position bound hbound
  exact hvalues

/-- Only starts of instructions are typed. -/
theorem exists_instruction (h : Typing setup.IsPlace 0 entry types)
    (hf : f.Bounded setup types position) : ∃ index i, setup.body.get? index = some i ∧ i.position = position := by
  obtain ⟨bound, hbound, -⟩ := hf.below
  obtain ⟨_, ⟨index, i, hi, hposition, -⟩, -⟩ := h.place position bound hbound
  exact ⟨index, i, hi, hposition⟩

/-- An instruction goes through with a frame below the one that is given to it. -/
theorem runs (h : Typing setup.IsPlace 0 entry types) (hp : setup.Prepared code) (hplain : setup.IsPlain)
    (hi : setup.body.get? index = some i) (hf : f.Bounded setup types i.position) :
    (setup.placeOf i).Runs f := by
  obtain ⟨bound, hbound, hbelow⟩ := hf.below
  obtain ⟨_, ⟨index', i', hi', hposition, rfl⟩, -, hruns, -⟩ := h.place i.position bound hbound
  obtain rfl := hp.tiles.index_eq hi hi' hposition.symm
  obtain rfl := Option.some.inj (hi.symm.trans hi')
  exact hruns.mono hbelow hf.fits.paired (hf.fits.values hplain)

/-- Where control goes on with a frame below the one that is given, it comes with one below the one given there. -/
theorem goes (h : Typing setup.IsPlace 0 entry types) (hp : setup.Prepared code) (hplain : setup.IsPlain) {m : Nat}
    (hi : setup.body.get? index = some i) (hf : f.Bounded setup types i.position)
    (hgoes : (setup.placeOf i).Goes f m g) : ∃ bound, types m = some bound ∧ g.Below bound := by
  obtain ⟨bound, hbound, hbelow⟩ := hf.below
  obtain ⟨_, ⟨index', i', hi', hposition, rfl⟩, -, hruns, hclosed⟩ := h.place i.position bound hbound
  obtain rfl := hp.tiles.index_eq hi hi' hposition.symm
  obtain rfl := Option.some.inj (hi.symm.trans hi')
  obtain ⟨g', hgoes', hbelow'⟩ := hgoes.mono hruns hbelow hf.fits.paired (hf.fits.values hplain)
  obtain ⟨bound', hbound', hbelow''⟩ := hclosed m g' hgoes'
  exact ⟨bound', hbound', hbelow'.trans hbelow''⟩

end Typing

namespace Session

variable {setup : Setup} {code : List UInt8} {entry : Frame} {types : Nat → Option Frame} {s : Session}

/-- Merging a frame below the bound of a place goes through. -/
theorem mergeInto_bounded (ht : Typing setup.IsPlace 0 entry types) (hp : setup.Prepared code)
    (h : s.Bounded setup types) (hhead : setup.IsHead position)
    (hframe : frame.Bounded setup types position) :
    ∃ t, s.mergeInto setup position frame = .ok t ∧ t.Bounded setup types := by
  have hposition : position < s.states.bound := by
    obtain ⟨index, i, hi, rfl⟩ := ht.exists_instruction hframe
    rw [h.wellFormed.sized.states, hp.tiles.codeLength_eq]
    exact hp.tiles.position_lt_length hi
  -- a state that takes the place of the old one
  have hinsert : ∀ (u : Session) (st : TypeState), u.states = s.states → st.frame.Bounded setup types position →
      ∀ p st', ({ u with states := u.states.insert position st }.enqueue position).states.get? p = some st' →
        st'.frame.Bounded setup types p := by
    intro u st hu hst
    rw [states_enqueue]
    show ∀ p st', (u.states.insert position st).get? p = some st' → st'.frame.Bounded setup types p
    rw [hu]
    exact PositionMap.forall_insert h.states hst
  suffices hok : ∃ t, s.mergeInto setup position frame = .ok t ∧
      ∀ p st, t.states.get? p = some st → st.frame.Bounded setup types p by
    obtain ⟨t, hmerge, hstates⟩ := hok
    exact ⟨t, hmerge, (mergeInto_spec h.wellFormed hframe.fits hhead hmerge).2.1, hstates⟩
  unfold mergeInto
  cases hslot : s.states.slot? position with
  | none =>
    have hge := Array.getElem?_eq_none_iff.mp hslot
    exact absurd hposition (Nat.not_lt.mpr hge)
  | some slot =>
    cases slot with
    | none => exact ⟨_, rfl, hinsert _ _ (states_note ..) hframe⟩
    | some st =>
      have hst : s.states.get? position = some st := PositionMap.get?_eq_some_iff.mpr hslot
      have hold := h.states position st hst
      obtain ⟨bound, hbound, hbelow⟩ := hframe.below
      obtain ⟨bound', hbound', hbelow'⟩ := hold.below
      obtain rfl := Option.some.inj (hbound.symm.trans hbound')
      obtain ⟨merged, hmerge, hmerged, hroot⟩ := Frame.merge_of_below hbelow' hbelow (ht.hasValues hbound)
        hold.fits.paired hframe.fits.paired hold.root hframe.root
      have hnew : merged.Bounded setup types position :=
        ⟨fits_merge hold.fits hframe.fits hmerge, hroot, bound, hbound, hmerged⟩
      unfold TypeState.merge
      simp only [hmerge]
      by_cases hchanged : merged = st.frame
      · simp only [ne_eq, hchanged, not_true_eq_false, decide_false]
        exact ⟨s, rfl, h.states⟩
      · simp only [ne_eq, hchanged, not_false_eq_true, decide_true]
        exact ⟨_, rfl, hinsert _ _ (states_note ..) hnew⟩

theorem Bounded.of_states (h : s.Bounded setup types) {t : Session} (hwf : t.WellFormed setup) (hstates : t.states = s.states) :
    t.Bounded setup types := by
  refine ⟨hwf, ?_⟩
  rw [hstates]
  exact h.states

/-- Merging a frame into the handlers around an instruction goes through. -/
theorem mergeHandlers_bounded (ht : Typing setup.IsPlace 0 entry types) (hp : setup.Prepared code)
    (h : s.Bounded setup types) (hfits : frame.Fits setup) (hroot : frame.nesting = [])
    (hcaught : ∀ type n, (setup.placeOf i).handles type n → ∃ g bound, (setup.placeOf i).caught frame type = some g ∧
      types n = some bound ∧ g.Below bound) :
    ∃ t, s.mergeHandlers setup i.position frame = .ok t ∧ t.Bounded setup types := by
  unfold mergeHandlers
  refine foldlM_ok ?_ h
  intro u handler hmem hu
  obtain ⟨hmem, hcovers⟩ := List.mem_filter.mp hmem
  obtain ⟨caught, bound, hpush, hbound, hbelow⟩ := hcaught _ _ ⟨handler, hmem, hcovers, rfl, rfl⟩
  have hpush' : Caught setup handler frame caught := toOption_eq_some.mp hpush
  have hnesting : caught.nesting = [] := by
    obtain ⟨rfl, -⟩ := Frame.checkHeight_eq_ok.mp hpush'
    exact hroot
  unfold mergeHandler
  dsimp only
  rw [require_eq_ok.mpr hpush']
  exact mergeInto_bounded ht hp hu (hp.handlers handler hmem)
    ⟨fits_caught hp hfits hmem hpush', hnesting, bound, hbound, hbelow⟩

/-- What an instruction leaves is again a frame outside of all subroutines. -/
theorem fits_result (hfits : frame.Fits setup) (hroot : frame.nesting = [])
    (h : (setup.placeOf i).result frame = some g) : g.Fits setup ∧ g.nesting = [] := by
  unfold Place.result at h
  simp only [Setup.placeOf] at h
  rw [← hroot]
  split at h
  · have hafter := toOption_eq_some.mp h
    exact ⟨hfits.after hafter, (Frame.after_effect Exec.sameShape_effect hafter).2⟩
  · have hbranch := toOption_eq_some.mp h
    exact ⟨hfits.executeBranch hbranch, (Frame.executeBranch_effect Exec.sameShape_effect hbranch).2⟩
  · have hselect := toOption_eq_some.mp h
    exact ⟨hfits.executeSelect hselect, (Frame.executeSelect_effect Exec.sameShape_effect hselect).2⟩
  all_goals simp at h

theorem interpretPlain_bounded (ht : Typing setup.IsPlace 0 entry types) (hp : setup.Prepared code)
    (h : s.Bounded setup types) {op : Op} {after : Frame}
    (hafter : frame.after op (setup.context i.position) = .ok after) (hfits : after.Fits setup) (hroot : after.nesting = [])
    (hcaught : i.flags.store = true → ∀ type n, (setup.placeOf i).handles type n →
      ∃ g bound, (setup.placeOf i).caught after type = some g ∧ types n = some bound ∧ g.Below bound) :
    ∃ t next, s.interpretPlain setup i op frame = .ok (t, next) ∧ t.Bounded setup types := by
  have hnoted : (if storesReturnAddress op frame = true then
      { s with returnStores := s.returnStores.insert i.position } else s).Bounded setup types := by
    split
    · exact h.of_states (h.wellFormed.congr rfl rfl rfl rfl rfl (PositionSet.size_insert ..) rfl) rfl
    · exact h
  unfold interpretPlain
  dsimp only
  generalize (if storesReturnAddress op frame = true then
      { s with returnStores := s.returnStores.insert i.position } else s) = u at hnoted ⊢
  have hcharged := hnoted.of_states
    (hnoted.wellFormed.registry (frame.execute op (setup.context i.position) u.registry).1) rfl
  rw [require_eq_ok.mpr ((Frame.execute_snd ..).trans hafter)]
  dsimp only
  split
  · rename_i hstore
    obtain ⟨t, hmerge, hbounded⟩ := mergeHandlers_bounded ht hp hcharged hfits hroot (hcaught hstore)
    rw [hmerge]
    exact ⟨t, _, rfl, hbounded⟩
  · exact ⟨_, _, rfl, hcharged⟩

/-- Looking at an instruction with a frame below its bound goes through. -/
theorem interpretOne_bounded (ht : Typing setup.IsPlace 0 entry types) (hp : setup.Prepared code) (hplain : setup.IsPlain)
    (h : s.Bounded setup types) (hi : setup.body.get? index = some i)
    (hframe : frame.Bounded setup types i.position) :
    ∃ t next, s.interpretOne setup i frame = .ok (t, next) ∧ t.Bounded setup types := by
  have hruns := ht.runs hp hplain hi hframe
  obtain ⟨g, hg⟩ := Option.isSome_iff_exists.mp hruns.result
  obtain ⟨hfits, hroot⟩ := fits_result hframe.fits hframe.root hg
  -- frames that come to handlers
  have hcaught : ∀ type n, (setup.placeOf i).handles type n →
      ∃ k bound, (setup.placeOf i).caught frame type = some k ∧ types n = some bound ∧ k.Below bound := by
    intro type n hhandles
    obtain ⟨k, hk⟩ := Option.isSome_iff_exists.mp (hruns.caught type n hhandles)
    obtain ⟨bound, hbound, hbelow⟩ := ht.goes hp hplain hi hframe (.throws hhandles hk)
    exact ⟨k, bound, hk, hbound, hbelow⟩
  have hjump : ∀ n ∈ (setup.placeOf i).flow.targets, g.Bounded setup types n := by
    intro n htarget
    exact ⟨hfits, hroot, ht.goes hp hplain hi hframe (.jumps htarget hg)⟩
  have hlooked : (s.looked setup i frame).Bounded setup types :=
    h.of_states (h.wellFormed.looked i frame) (by rw [looked_eq])
  obtain ⟨u, hmerge, hu⟩ := mergeHandlers_bounded ht hp hlooked hframe.fits hframe.root hcaught
  unfold looked at hmerge
  unfold interpretOne
  dsimp only
  rw [hmerge]
  dsimp only
  unfold Place.result at hg
  simp only [Setup.placeOf] at hg
  cases hflow : i.flow with
  | plain op =>
    simp only [hflow] at hg ⊢
    have hafter := toOption_eq_some.mp hg
    refine interpretPlain_bounded ht hp hu hafter hfits hroot ?_
    intro hstore type n hhandles
    have hresult : (setup.placeOf i).result frame = some g := by
      unfold Place.result
      simp only [Setup.placeOf, hflow]
      exact hg
    -- pushing what is caught succeeds as it did with the locals before the instruction
    obtain ⟨k, hk⟩ := Option.isSome_iff_exists.mp (hruns.caught type n hhandles)
    have hk' : (setup.placeOf i).caught g type = some ⟨g.locals, [type], g.nesting⟩ :=
      Place.caught_eq_some.mpr ⟨(Place.caught_eq_some.mp hk).1, rfl⟩
    have hstores : (setup.placeOf i).storesLocal = true := by
      unfold Place.storesLocal
      simp only [Setup.placeOf, hflow]
      exact hstore
    obtain ⟨bound, hbound, hbelow⟩ := ht.goes hp hplain hi hframe (.throwsAfter hstores hresult hhandles hk')
    exact ⟨_, bound, hk', hbound, hbelow⟩
  | branch kind target =>
    simp only [hflow] at hg ⊢
    rw [require_eq_ok.mpr (toOption_eq_some.mp hg)]
    have hmem : target ∈ i.targets := by simp [Instruction.targets, hflow]
    obtain ⟨t, hmerge', hbounded⟩ := mergeInto_bounded ht hp hu (hp.targets index i hi target hmem) (hjump target hmem)
    dsimp only
    rw [hmerge']
    exact ⟨t, _, rfl, hbounded⟩
  | select default cases =>
    simp only [hflow] at hg ⊢
    rw [require_eq_ok.mpr (toOption_eq_some.mp hg)]
    have hall : ∃ t, u.mergeIntoAll setup (default :: cases.targets) g = .ok t ∧ t.Bounded setup types := by
      unfold mergeIntoAll
      refine foldlM_ok ?_ hu
      intro w target hmem hw
      have hmem' : target ∈ i.targets := by simpa [Instruction.targets, hflow] using hmem
      exact mergeInto_bounded ht hp hw (hp.targets index i hi target hmem') (hjump target hmem')
    obtain ⟨t, hmerge', hbounded⟩ := hall
    dsimp only
    rw [hmerge']
    exact ⟨t, none, rfl, hbounded⟩
  | jsr target => exact absurd hflow (hplain.jsr index i target hi)
  | ret slot => exact absurd hflow (hplain.ret index i slot hi)

end Session

/-- What an instruction passes on is below the bound of the next one. -/
theorem Frame.Bounded.onward {code : List UInt8} {entry : Frame} {types : Nat → Option Frame}
    (h : frame.Bounded setup types i.position)
    (ht : Typing setup.IsPlace 0 entry types) (hp : setup.Prepared code) (hplain : setup.IsPlain)
    (hi : setup.body.get? index = some i) (hnext : i.onward (setup.context i.position) frame = some next) :
    next.Bounded setup types i.next := by
  obtain ⟨hfalls, hresult⟩ := Session.onward_eq_some_iff.mp hnext
  obtain ⟨hfits, hroot⟩ := Session.fits_result h.fits h.root hresult
  exact ⟨hfits, hroot, ht.goes hp hplain hi h (.falls hfalls hresult)⟩

namespace Session

variable {setup : Setup} {code : List UInt8} {entry : Frame} {types : Nat → Option Frame} {s : Session}

/-- Looking at the code from an instruction on goes through. -/
theorem interpret_bounded (ht : Typing setup.IsPlace 0 entry types) (hp : setup.Prepared code) (hplain : setup.IsPlain)
    (h : s.Bounded setup types) (hzero : (s.states.get? 0).isSome) {origin : Nat}
    (hi : setup.body.get? index = some i) (hframe : frame.Bounded setup types i.position) :
    ∃ t, interpret setup origin index frame s = .ok t ∧ t.Bounded setup types := by
  fun_induction interpret setup origin index frame s generalizing i with
  | case1 index frame s hnone =>
    rw [hnone] at hi
    simp at hi
  | case2 index frame s j hj hmerged =>
    obtain rfl := Option.some.inj (hj.symm.trans hi)
    rw [Bool.and_eq_true, isMerged_iff h.wellFormed hzero] at hmerged
    exact mergeInto_bounded ht hp h hmerged.2 hframe
  | case3 index frame s j hj hmerged e herror =>
    obtain rfl := Option.some.inj (hj.symm.trans hi)
    obtain ⟨t, next, hone, -⟩ := interpretOne_bounded ht hp hplain h hi hframe
    rw [hone] at herror
    simp at herror
  | case4 index frame s j hj hmerged u hone =>
    obtain rfl := Option.some.inj (hj.symm.trans hi)
    obtain ⟨t, next, hone', hbounded⟩ := interpretOne_bounded ht hp hplain h hi hframe
    obtain ⟨rfl, -⟩ := Prod.mk.inj (Except.ok.inj (hone.symm.trans hone'))
    exact ⟨u, rfl, hbounded⟩
  | case5 index frame s j hj hmerged u next hone hsize =>
    obtain rfl := Option.some.inj (hj.symm.trans hi)
    obtain ⟨-, hnext⟩ := interpretOne_spec hp h.wellFormed hframe.fits hi hone
    obtain ⟨_, k, hk, hposition⟩ := ht.exists_instruction (hframe.onward ht hp hplain hi hnext.symm)
    have hlast := hp.tiles.next_eq_length hi hsize
    have hlt := hp.tiles.position_lt_length hk
    omega
  | case6 index frame s j hj hmerged u next hone hsize ih =>
    obtain rfl := Option.some.inj (hj.symm.trans hi)
    obtain ⟨t, next', hone', hbounded⟩ := interpretOne_bounded ht hp hplain h hi hframe
    obtain ⟨rfl, -⟩ := Prod.mk.inj (Except.ok.inj (hone.symm.trans hone'))
    obtain ⟨hlooks, hnext⟩ := interpretOne_spec hp h.wellFormed hframe.fits hi hone
    obtain ⟨i', hi'⟩ := setup.body.exists_get? (index + 1) (by omega)
    have hzero' : (u.states.get? 0).isSome := by
      obtain ⟨st, hst⟩ := Option.isSome_iff_exists.mp hzero
      obtain ⟨st', hst', -⟩ := hlooks.grows.states 0 st hst
      exact Option.isSome_of_eq_some hst'
    refine ih hbounded hzero' hi' ?_
    rw [hp.tiles.position_succ hi hi']
    exact hframe.onward ht hp hplain hi hnext.symm

/-- Every round goes through. -/
theorem round_bounded (ht : Typing setup.IsPlace 0 entry types) (hp : setup.Prepared code) (hplain : setup.IsPlain)
    (hexplores : s.Explores setup entry) (h : s.Bounded setup types) {rest : List Nat} :
    ∃ t, { s with worklist := rest }.round setup position = .ok t ∧ t.Bounded setup types := by
  have hpop := h.of_states (t := { s with worklist := rest }) (h.wellFormed.congr rfl rfl rfl rfl rfl rfl rfl) rfl
  unfold round
  cases hst : s.states.get? position with
  | none =>
    cases hframe : s.retFrames.get? position with
    | none => exact ⟨_, rfl, hpop⟩
    | some frame =>
      -- there is no `ret`
      obtain ⟨-, index, i, slot, hi, -, hflow, -⟩ := hexplores.rets position frame hframe
      exact absurd hflow (hplain.ret index i slot hi)
  | some st =>
    have hbounded := h.states position st hst
    obtain ⟨index, i, hi, rfl⟩ := ht.exists_instruction hbounded
    have hinsert : { s with worklist := rest, states := s.states.insert i.position { st with visited := true } }.Bounded
        setup types := by
      refine ⟨hpop.wellFormed.insertState hbounded.fits (h.wellFormed.states i.position st hst).2, ?_⟩
      apply PositionMap.forall_insert h.states
      exact hbounded
    have hzero := (hexplores.entered.mono (learns_pop rest hst)).isSome
    dsimp only
    unfold interpretAt
    rw [hp.tiles.indexOf?_eq_some_iff.mpr ⟨i, hi, rfl⟩]
    exact interpret_bounded ht hp hplain hinsert hzero hi hbounded

/-- All rounds go through. -/
theorem run_bounded (ht : Typing setup.IsPlace 0 entry types) (hp : setup.Prepared code) (hplain : setup.IsPlain)
    (hexplores : s.Explores setup entry) (h : s.Bounded setup types) : ∃ t, s.run setup = .ok t := by
  fun_induction run setup s with
  | case1 s hwork => exact ⟨s, rfl⟩
  | case2 s position rest hwork e herror =>
    obtain ⟨t, hround, -⟩ := @round_bounded position setup code entry types s ht hp hplain hexplores h rest
    rw [hround] at herror
    simp at herror
  | case3 s position rest hwork u hround ih =>
    obtain ⟨t, hround', hbounded⟩ := @round_bounded position setup code entry types s ht hp hplain hexplores h rest
    obtain rfl := Except.ok.inj (hround.symm.trans hround')
    exact ih (explores_round hp hexplores hwork hround) hbounded

end Session

theorem Frame.nesting_entry {thisClass : BinaryName} {isStatic isConstructor : Bool} {descriptor : MethodDescriptor}
    {maxLocals : Nat} (h : Frame.entry thisClass isStatic isConstructor descriptor maxLocals = .ok f) :
    f.nesting = [] := by
  unfold Frame.entry at h
  obtain ⟨locals, -, h⟩ := bind_eq_ok.mp h
  obtain rfl := pure_eq_ok.mp h
  rfl

/-- **Code without subroutines is accepted exactly if it can be typed.** -/
theorem Method.accepted_iff {method : Method} {entry : Frame} (hfits : method.code.bytes.length < 2 ^ 64)
    (hprepare : Inference.prepare false method = .ok (setup, entry)) (hplain : setup.IsPlain) :
    (∃ v, method.verify = .ok v) ↔ ∃ types, Typing setup.IsPlace 0 entry types := by
  constructor
  · rintro ⟨v, hverify⟩
    obtain ⟨setup', s, hsettled⟩ := Method.settled hfits hverify
    obtain ⟨entry', hexplores, -, hprepare', -⟩ := hsettled.explores
    obtain ⟨rfl, rfl⟩ := Prod.mk.inj (Except.ok.inj (hprepare.symm.trans hprepare'))
    exact ⟨v.typeAt? method, hsettled.typing hplain hexplores.entered⟩
  · rintro ⟨types, ht⟩
    obtain ⟨rfl, hp, -, -, hentry⟩ := Inference.prepare_spec hfits hprepare
    have hstart : (Session.start setup.body.codeLength setup.method.code.maxLocals.toNat).Bounded setup types := by
      refine ⟨Inference.wellFormed_start setup, ?_⟩
      intro p st hst
      simp [Session.start] at hst
    have hfits' := Frame.fits_entry hentry
    obtain ⟨s₀, hs₀, hbounded⟩ := Session.mergeInto_bounded ht hp hstart (Or.inr rfl)
      ⟨hfits', Frame.nesting_entry hentry, ht.entered⟩
    obtain ⟨s, hrun⟩ := Session.run_bounded ht hp hplain (Inference.explores_entry hfits' hs₀) hbounded
    have hanalyse : Inference.analyse setup entry = .ok s := by
      unfold Inference.analyse
      exact bind_eq_ok.mpr ⟨s₀, hs₀, hrun⟩
    refine ⟨s.verified setup.body, ?_⟩
    unfold Method.verify Inference.verify
    simp only [hprepare, hanalyse]

/-! ## Subroutines that are found -/

theorem Settled.hasSubroutines_iff {method : Method} {v : Verified} {s : Session}
    (h : Settled method v setup s) : v.hasSubroutines = true ↔ ∃ entry sub, s.registry.get? entry = some sub := by
  rw [h.verified]
  show (!s.registry.isEmpty) = true ↔ _
  unfold Registry.isEmpty Registry.get?
  cases s.registry.subroutines with
  | nil => simp
  | cons first rest =>
    simp only [List.isEmpty_cons, Bool.not_false, true_iff]
    exact ⟨first.entry, first, by simp⟩

/-- A method without a `jsr` has no subroutines. -/
theorem Settled.hasSubroutines_eq_false {method : Method} {v : Verified} {s : Session} (h : Settled method v setup s)
    (hjsr : ∀ (index : Nat) (i : Instruction) (target : Nat), setup.body.get? index = some i → i.flow ≠ .jsr target) :
    v.hasSubroutines = false := by
  obtain ⟨entry, -, -, -, hanalyse⟩ := h.explores
  have hnone : s.registry.Accounts (fun _ => False) (fun _ _ => True) :=
    (Inference.passes_analyse h.prepared hanalyse).accounts (fun _ hi hflow => hjsr _ _ _ hi hflow)
      (fun _ _ _ _ => trivial)
  rw [← Bool.not_eq_true, h.hasSubroutines_iff]
  rintro ⟨callee, sub, hsub⟩
  exact (hnone callee sub hsub).1

end Bytecode
