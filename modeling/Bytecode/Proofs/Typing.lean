import Bytecode.Proofs.Encoding
import Bytecode.Proofs.Monotonicity

/-!
# Typed code

Code without subroutines can be typed by giving a frame to each place that control comes to, so that what is done there
goes through and leaves frames below those of the places where control goes on.

* `Place`: what is done at a place, and where control can go on from it;
* `Place.Runs`, `Place.Goes`: what is done goes through with a frame, and where control goes on with which frame;
* `Typing`: frames for the places of some code that are closed under this;
* `Place.Moves`: the same place in other code, where the places have other names;
* `Renames`: code that has the places of some other code under other names, some of which fall together because nothing
  is done there; the one can be typed exactly if the other can (`Renames.typing_iff`).
-/

namespace Bytecode

/-- A place in some code.  Places are named by numbers: by positions in the code, or by the numbers of copies. -/
structure Place where
  /-- What is done, with the places that are named. -/
  flow : Flow
  /-- Does control never go on to the next place? -/
  stop : Bool
  /-- Is a local written? -/
  store : Bool
  context : ExecutionContext
  /-- The place that follows. -/
  next : Nat
  /-- The types that are caught around the place, and where. -/
  handles : VType → Nat → Prop

namespace Place

/-- The frame that is left by what is done at a place. -/
def result (p : Place) (f : Frame) : Option Frame :=
  match p.flow with
  | .plain op => (f.after op p.context).toOption
  | .branch kind _ => (f.executeBranch kind).toOption
  | .select _ _ => f.executeSelect.toOption
  | .jsr _ | .ret _ => none

/-- Can control go on to the place that follows? -/
def fallsThrough (p : Place) : Bool :=
  match p.flow with
  | .plain _ => !p.stop
  | .branch kind _ => kind ≠ .goto
  | .select _ _ | .jsr _ | .ret _ => false

/-- Do handlers also see the locals after it? -/
def storesLocal (p : Place) : Bool :=
  match p.flow with
  | .plain _ => p.store
  | _ => false

/-- The frame in which a handler of a type starts. -/
def caught (p : Place) (f : Frame) (type : VType) : Option Frame :=
  ((⟨f.locals, [], f.nesting⟩ : Frame).push type p.context.maxStack).toOption

/-- What is done at a place goes through with a frame. -/
structure Runs (p : Place) (f : Frame) : Prop where
  result : (p.result f).isSome
  caught : ∀ type n, p.handles type n → (p.caught f type).isSome

/-- Where control goes on from a place, and the frame it comes with. -/
inductive Goes (p : Place) (f : Frame) : Nat → Frame → Prop
  | falls {g : Frame} (hfalls : p.fallsThrough = true) (hresult : p.result f = some g) : Goes p f p.next g
  | jumps {g : Frame} {n : Nat} (htarget : n ∈ p.flow.targets) (hresult : p.result f = some g) : Goes p f n g
  | throws {g : Frame} {type : VType} {n : Nat} (hhandles : p.handles type n) (hcaught : p.caught f type = some g) :
      Goes p f n g
  | throwsAfter {g h : Frame} {type : VType} {n : Nat} (hstore : p.storesLocal = true) (hresult : p.result f = some g)
      (hhandles : p.handles type n) (hcaught : p.caught g type = some h) : Goes p f n h

/-! ## Frames that say more -/

theorem caught_eq_some {p : Place} {f g : Frame} {type : VType} :
    p.caught f type = some g ↔ width type ≤ p.context.maxStack ∧ g = ⟨f.locals, [type], f.nesting⟩ := by
  unfold caught Frame.push
  rw [toOption_eq_some, Frame.checkHeight_eq_ok, and_comm]
  have hheight : (⟨f.locals, [type], f.nesting⟩ : Frame).height = width type := by
    show Frame.stackHeight [type] = width type
    simp
  rw [hheight]

/-- What goes through with a frame goes through with one that says more. -/
theorem result_mono {p : Place} {f f' g' : Frame} (h : f.Below f') (hpaired : Exec.Paired f.locals)
    (hvalues : f.HasValues) (hresult : p.result f' = some g') : ∃ g, p.result f = some g ∧ g.Below g' := by
  unfold result at hresult ⊢
  cases hflow : p.flow with
  | plain op =>
    simp only [hflow] at hresult ⊢
    obtain ⟨g, hg, hbelow⟩ :=
      Frame.after_mono h hpaired (hvalues.storesAlike op) (toOption_eq_some.mp hresult)
    exact ⟨g, toOption_eq_some.mpr hg, hbelow⟩
  | branch kind target =>
    simp only [hflow] at hresult ⊢
    obtain ⟨g, hg, hbelow⟩ := Frame.executeBranch_mono h hpaired (toOption_eq_some.mp hresult)
    exact ⟨g, toOption_eq_some.mpr hg, hbelow⟩
  | select default cases =>
    simp only [hflow] at hresult ⊢
    obtain ⟨g, hg, hbelow⟩ := Frame.executeSelect_mono h hpaired (toOption_eq_some.mp hresult)
    exact ⟨g, toOption_eq_some.mpr hg, hbelow⟩
  | jsr target => simp [hflow] at hresult
  | ret index => simp [hflow] at hresult

theorem caught_mono {p : Place} {f f' g' : Frame} {type : VType} (h : f.Below f') (hcaught : p.caught f' type = some g') :
    ∃ g, p.caught f type = some g ∧ g.Below g' := by
  obtain ⟨hheight, rfl⟩ := caught_eq_some.mp hcaught
  exact ⟨_, caught_eq_some.mpr ⟨hheight, rfl⟩, h.toLocallyBelow.withStack [type]⟩

theorem Runs.mono {p : Place} {f f' : Frame} (h : p.Runs f') (hbelow : f.Below f') (hpaired : Exec.Paired f.locals)
    (hvalues : f.HasValues) : p.Runs f := by
  refine ⟨?_, ?_⟩
  · obtain ⟨g', hg'⟩ := Option.isSome_iff_exists.mp h.result
    obtain ⟨g, hg, -⟩ := result_mono hbelow hpaired hvalues hg'
    exact Option.isSome_of_eq_some hg
  · intro type n hhandles
    obtain ⟨g', hg'⟩ := Option.isSome_iff_exists.mp (h.caught type n hhandles)
    obtain ⟨g, hg, -⟩ := caught_mono hbelow hg'
    exact Option.isSome_of_eq_some hg

/-- Where control goes on with a frame, it goes on with a frame that says less, if that goes through. -/
theorem Goes.mono {p : Place} {f f' g : Frame} {n : Nat} (h : p.Goes f n g) (hruns : p.Runs f') (hbelow : f.Below f')
    (hpaired : Exec.Paired f.locals) (hvalues : f.HasValues) : ∃ g', p.Goes f' n g' ∧ g.Below g' := by
  obtain ⟨left, hleft⟩ := Option.isSome_iff_exists.mp hruns.result
  obtain ⟨k, hk, hbelow'⟩ := result_mono hbelow hpaired hvalues hleft
  cases h with
  | falls hfalls hresult =>
    obtain rfl := Option.some.inj (hk.symm.trans hresult)
    exact ⟨left, .falls hfalls hleft, hbelow'⟩
  | jumps htarget hresult =>
    obtain rfl := Option.some.inj (hk.symm.trans hresult)
    exact ⟨left, .jumps htarget hleft, hbelow'⟩
  | throws hhandles hcaught =>
    obtain ⟨hheight, rfl⟩ := caught_eq_some.mp hcaught
    exact ⟨_, .throws hhandles (caught_eq_some.mpr ⟨hheight, rfl⟩), hbelow.toLocallyBelow.withStack _⟩
  | throwsAfter hstore hresult hhandles hcaught =>
    obtain rfl := Option.some.inj (hk.symm.trans hresult)
    obtain ⟨hheight, rfl⟩ := caught_eq_some.mp hcaught
    exact ⟨_, .throwsAfter hstore hleft hhandles (caught_eq_some.mpr ⟨hheight, rfl⟩),
      hbelow'.toLocallyBelow.withStack _⟩

end Place

/-- Frames for the places that control comes to, where `place` says what the places of the code are.  Only values stand
on the stacks; what is done at a place goes through with its frame; and where control goes on, it comes with a frame
below the one that is given there. -/
structure Typing (place : Nat → Place → Prop) (start : Nat) (entry : Frame) (types : Nat → Option Frame) : Prop where
  entered : ∃ f, types start = some f ∧ entry.Below f
  place : ∀ n f, types n = some f → ∃ p, place n p ∧ f.HasValues ∧ p.Runs f ∧
    ∀ m g, p.Goes f m g → ∃ g', types m = some g' ∧ g.Below g'

/-! ## Places in other code -/

/-- The same place in other code, where places are renamed. -/
structure Place.Moves (rename : Nat → Nat) (p q : Place) : Prop where
  flow : p.flow.Moved (fun n m => rename n = m) q.flow
  falls : q.fallsThrough = p.fallsThrough
  stores : q.storesLocal = p.storesLocal
  context : q.context = p.context
  next : q.next = rename p.next
  handles : ∀ type m, q.handles type m ↔ ∃ n, p.handles type n ∧ rename n = m

namespace Place.Moves

variable {rename : Nat → Nat} {p q : Place}

theorem result_eq (h : Moves rename p q) (f : Frame) : q.result f = p.result f := by
  have hflow := h.flow
  unfold Place.result
  rw [h.context]
  generalize p.flow = flow at hflow ⊢
  generalize q.flow = flow' at hflow ⊢
  cases hflow <;> rfl

theorem caught_eq (h : Moves rename p q) (f : Frame) (type : VType) : q.caught f type = p.caught f type := by
  unfold Place.caught
  rw [h.context]

theorem runs_iff (h : Moves rename p q) {f : Frame} : q.Runs f ↔ p.Runs f := by
  constructor
  · intro hruns
    refine ⟨?_, ?_⟩
    · rw [← h.result_eq]
      exact hruns.result
    · intro type n hhandles
      rw [← h.caught_eq]
      exact hruns.caught type _ ((h.handles type _).mpr ⟨n, hhandles, rfl⟩)
  · intro hruns
    refine ⟨?_, ?_⟩
    · rw [h.result_eq]
      exact hruns.result
    · intro type m hhandles
      obtain ⟨n, hhandles, -⟩ := (h.handles type m).mp hhandles
      rw [h.caught_eq]
      exact hruns.caught type n hhandles

theorem goes_of (h : Moves rename p q) {f g : Frame} {n : Nat} (hgoes : p.Goes f n g) : q.Goes f (rename n) g := by
  cases hgoes with
  | falls hfalls hresult =>
    rw [← h.next]
    exact .falls (h.falls.trans hfalls) ((h.result_eq f).trans hresult)
  | jumps htarget hresult =>
    obtain ⟨k, hk⟩ := List.mem_iff_getElem?.mp htarget
    obtain ⟨m, hm, rfl⟩ := forall₂_getElem? h.flow.forall₂_targets.flip hk
    exact .jumps (List.mem_of_getElem? hm) ((h.result_eq f).trans hresult)
  | throws hhandles hcaught =>
    exact .throws ((h.handles _ _).mpr ⟨n, hhandles, rfl⟩) ((h.caught_eq f _).trans hcaught)
  | throwsAfter hstore hresult hhandles hcaught =>
    exact .throwsAfter (h.stores.trans hstore) ((h.result_eq f).trans hresult)
      ((h.handles _ _).mpr ⟨n, hhandles, rfl⟩) ((h.caught_eq _ _).trans hcaught)

theorem exists_goes (h : Moves rename p q) {f g : Frame} {m : Nat} (hgoes : q.Goes f m g) :
    ∃ n, p.Goes f n g ∧ rename n = m := by
  cases hgoes with
  | falls hfalls hresult =>
    exact ⟨p.next, .falls (h.falls.symm.trans hfalls) ((h.result_eq f).symm.trans hresult), h.next.symm⟩
  | jumps htarget hresult =>
    obtain ⟨k, hk⟩ := List.mem_iff_getElem?.mp htarget
    obtain ⟨n, hn, hrename⟩ := forall₂_getElem? h.flow.forall₂_targets hk
    exact ⟨n, .jumps (List.mem_of_getElem? hn) ((h.result_eq f).symm.trans hresult), hrename⟩
  | throws hhandles hcaught =>
    obtain ⟨n, hhandles, hrename⟩ := (h.handles _ _).mp hhandles
    exact ⟨n, .throws hhandles ((h.caught_eq f _).symm.trans hcaught), hrename⟩
  | throwsAfter hstore hresult hhandles hcaught =>
    obtain ⟨n, hhandles, hrename⟩ := (h.handles _ _).mp hhandles
    exact ⟨n, .throwsAfter (h.stores.symm.trans hstore) ((h.result_eq f).symm.trans hresult) hhandles
      ((h.caught_eq _ _).symm.trans hcaught), hrename⟩

end Place.Moves

/-! ## Code under other names -/

/-- At the places that are not real nothing is done: control goes on to the next, which has the same name. -/
def Idles (rename : Nat → Nat) (bound : Nat) (real : Nat → Prop) (place : Nat → Place → Prop) : Prop :=
  ∀ n p, place n p → ¬ real n → n < bound ∧ p.flow = .branch .goto (n + 1) ∧ (∀ type m, ¬ p.handles type m) ∧
    rename (n + 1) = rename n

/-- Where nothing is done, control goes on with the same frame. -/
theorem Place.goes_idle {p : Place} {n : Nat} (hflow : p.flow = .branch .goto (n + 1)) (f : Frame) :
    p.result f = some f ∧ p.Goes f (n + 1) f := by
  have hresult : p.result f = some f := by
    unfold Place.result
    rw [hflow]
    rfl
  refine ⟨hresult, .jumps ?_ hresult⟩
  rw [hflow]
  exact List.mem_singleton.mpr rfl

theorem Place.goes_idle_only {p : Place} {n m : Nat} {f g : Frame} (hflow : p.flow = .branch .goto (n + 1))
    (hhandles : ∀ type m, ¬ p.handles type m) (h : p.Goes f m g) : m = n + 1 ∧ g = f := by
  have hresult := (Place.goes_idle hflow f).1
  cases h with
  | falls hfalls hsome => simp [Place.fallsThrough, hflow] at hfalls
  | jumps htarget hsome =>
    rw [hflow] at htarget
    exact ⟨List.mem_singleton.mp htarget, Option.some.inj (hsome.symm.trans hresult)⟩
  | throws hcaught => exact absurd hcaught (hhandles _ _)
  | throwsAfter hstore => simp [Place.storesLocal, hflow] at hstore

/-- From every place that has a frame, control comes to a real place of the same name. -/
theorem Idles.exists_real {rename : Nat → Nat} {bound start : Nat} {real : Nat → Prop} {place : Nat → Place → Prop}
    {entry : Frame} (h : Idles rename bound real place) {types : Nat → Option Frame}
    (ht : Typing place start entry types) {n : Nat} {f : Frame} (hf : types n = some f) :
    ∃ m g, real m ∧ rename m = rename n ∧ types m = some g ∧ f.Below g := by
  -- by the number of places that follow
  induction hrest : bound - n generalizing n f with
  | zero =>
    obtain ⟨p, hp, -⟩ := ht.place n f hf
    by_cases hreal : real n
    · exact ⟨n, f, hreal, rfl, hf, .refl f⟩
    · have hlt := (h n p hp hreal).1
      omega
  | succ rest ih =>
    obtain ⟨p, hp, -, -, hgoes⟩ := ht.place n f hf
    by_cases hreal : real n
    · exact ⟨n, f, hreal, rfl, hf, .refl f⟩
    · obtain ⟨-, hflow, -, hname⟩ := h n p hp hreal
      obtain ⟨g, hg, hbelow⟩ := hgoes (n + 1) f (Place.goes_idle hflow f).2
      obtain ⟨m, k, hm, hsame, hk, hbelow'⟩ := ih hg (by omega)
      exact ⟨m, k, hm, hsame.trans hname, hk, hbelow.trans hbelow'⟩

/-- Code whose places are the real places of some other code, under new names. -/
structure Renames (rename : Nat → Nat) (bound : Nat) (real : Nat → Prop) (place place' : Nat → Place → Prop) : Prop where
  idles : Idles rename bound real place
  moves : ∀ n p, place n p → real n → ∃ q, place' (rename n) q ∧ Place.Moves rename p q
  placed : ∀ n q, place' (rename n) q → ∃ p, place n p
  real_unique : ∀ n m, real n → real m → rename n = rename m → n = m
  place_unique : ∀ x q q', place' x q → place' x q' → q = q'

namespace Renames

variable {rename : Nat → Nat} {bound start : Nat} {real : Nat → Prop} {place place' : Nat → Place → Prop} {entry : Frame}

/-- A typing by the new names types the places. -/
theorem typing_of (h : Renames rename bound real place place') {types : Nat → Option Frame}
    (ht : Typing place' (rename start) entry types) : Typing place start entry fun n => types (rename n) := by
  refine ⟨ht.entered, ?_⟩
  intro n f hf
  obtain ⟨q, hq, hvalues, hruns, hgoes⟩ := ht.place (rename n) f hf
  obtain ⟨p, hp⟩ := h.placed n q hq
  refine ⟨p, hp, hvalues, ?_⟩
  by_cases hreal : real n
  · obtain ⟨q', hq', hmoves⟩ := h.moves n p hp hreal
    obtain rfl := h.place_unique _ q q' hq hq'
    refine ⟨hmoves.runs_iff.mp hruns, ?_⟩
    intro m g hgo
    exact hgoes (rename m) g (hmoves.goes_of hgo)
  · obtain ⟨-, hflow, hhandles, hname⟩ := h.idles n p hp hreal
    refine ⟨⟨Option.isSome_of_eq_some (Place.goes_idle hflow f).1, fun type m hcaught => absurd hcaught (hhandles type m)⟩, ?_⟩
    intro m g hgo
    obtain ⟨rfl, rfl⟩ := Place.goes_idle_only hflow hhandles hgo
    refine ⟨g, ?_, .refl g⟩
    show types (rename (n + 1)) = some g
    rw [hname]
    exact hf

open Classical in
/-- A typing of the places gives each new name the frame of the real place with that name. -/
noncomputable def newTypes (rename : Nat → Nat) (real : Nat → Prop) (types : Nat → Option Frame) (x : Nat) : Option Frame :=
  if h : ∃ n, real n ∧ rename n = x then types h.choose else none

theorem newTypes_rename (h : Renames rename bound real place place') (types : Nat → Option Frame) {n : Nat}
    (hreal : real n) : newTypes rename real types (rename n) = types n := by
  have hexists : ∃ m, real m ∧ rename m = rename n := ⟨n, hreal, rfl⟩
  unfold newTypes
  rw [dif_pos hexists]
  obtain ⟨hchosen, hname⟩ := hexists.choose_spec
  rw [h.real_unique _ n hchosen hreal hname]

theorem typing_newTypes (h : Renames rename bound real place place') {types : Nat → Option Frame}
    (ht : Typing place start entry types) : Typing place' (rename start) entry (newTypes rename real types) := by
  refine ⟨?_, ?_⟩
  · obtain ⟨f, hf, hbelow⟩ := ht.entered
    obtain ⟨m, g, hm, hname, hg, hbelow'⟩ := h.idles.exists_real ht hf
    refine ⟨g, ?_, hbelow.trans hbelow'⟩
    rw [← hname, h.newTypes_rename types hm]
    exact hg
  · intro x f hf
    obtain ⟨n, hreal, rfl⟩ : ∃ n, real n ∧ rename n = x := by
      refine Classical.byContradiction fun hnone => ?_
      unfold newTypes at hf
      rw [dif_neg hnone] at hf
      simp at hf
    rw [h.newTypes_rename types hreal] at hf
    obtain ⟨p, hp, hvalues, hruns, hgoes⟩ := ht.place n f hf
    obtain ⟨q, hq, hmoves⟩ := h.moves n p hp hreal
    refine ⟨q, hq, hvalues, hmoves.runs_iff.mpr hruns, ?_⟩
    intro y g hgo
    obtain ⟨m, hgo', rfl⟩ := hmoves.exists_goes hgo
    obtain ⟨k, hk, hbelow⟩ := hgoes m g hgo'
    obtain ⟨m', k', hreal', hname, hk', hbelow'⟩ := h.idles.exists_real ht hk
    refine ⟨k', ?_, hbelow.trans hbelow'⟩
    rw [← hname, h.newTypes_rename types hreal']
    exact hk'

/-- Code under other names can be typed exactly if the code can. -/
theorem typing_iff (h : Renames rename bound real place place') :
    (∃ types, Typing place' (rename start) entry types) ↔ ∃ types, Typing place start entry types := by
  constructor
  · rintro ⟨types, ht⟩
    exact ⟨_, h.typing_of ht⟩
  · rintro ⟨types, ht⟩
    exact ⟨_, h.typing_newTypes ht⟩

end Renames

end Bytecode
