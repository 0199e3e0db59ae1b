import Bytecode.Proofs.RegularSessions

/-!
# Frames at `new` instructions

Until its constructor runs, an object is known by the position of the `new` that made it.  Two objects made there would
not be told apart.  But when a `new` is looked at, the frame never has an object that it made before.

No rule removes such objects; that there are none follows from the course of the analysis.  Before the `new` is looked at
for the first time, no frame has an object of it.  By then there is a state at the head of the run that leads to the `new`
(`Inference.Passes.rooted`), and this state has no such object.  Merging only gives up what the state has, so the state
never gets one, and from it control runs straight to the `new`.

* `Frame.Lacks`: a frame has no object of the `new` at a position;
* `Frame.lasting_lacks`: where other instructions are looked at, this lasts;
* `Inference.Passes.lacks`: the frames that a `new` is looked at with lack its objects.
-/

namespace Bytecode

/-! ## Types -/

namespace VType

/-- Is it an object that the `new` at a position has made, before its constructor runs? -/
def isMadeAt (p : Nat) : VType → Bool
  | .uninitialized position _ => position = p
  | _ => false

variable {p : Nat} {a b t : VType}

theorem isMadeAt_iff : t.isMadeAt p = true ↔ ∃ name, t = .uninitialized p name := by
  cases t <;> simp [isMadeAt]

theorem IsProper.isMadeAt (h : t.IsProper) (p : Nat) : t.isMadeAt p = false := by
  rcases h with hinit | ⟨n, rfl⟩
  · cases t <;> simp [isInitialized] at hinit <;> rfl
  · cases n <;> rfl

theorem isMadeAt_of_le (ha : a.isMadeAt p = false) (h : a ≤ b) : b.isMadeAt p = false := by
  rw [Bool.eq_false_iff] at ha ⊢
  intro hb
  obtain ⟨name, rfl⟩ := isMadeAt_iff.mp hb
  rw [eq_of_le_of_isUninitialized h rfl] at ha
  exact ha hb

end VType

namespace Exec

/-- Operations leave no objects of the `new` at a position, if they find none. -/
theorem relates_lacking (p : Nat) :
    Relates (fun a b => a.Refines b ∧ b.isMadeAt p = false) (fun a b => a ≤ b ∧ b.isMadeAt p = false) where
  width h := relates_refines.width h.1
  numeric h := relates_refines.numeric h.1
  initialized h := relates_refines.initialized h.1
  this h := relates_refines.this h.1
  uninitialized h := relates_refines.uninitialized h.1
  address h := relates_refines.address h.1
  value h hproper := ⟨relates_refines.value h hproper, hproper.isMadeAt p⟩
  load h hreference := ⟨relates_refines.load h.1 hreference, h.2⟩
  loadNumeric h := relates_refines.loadNumeric h.1
  store h := ⟨relates_refines.store h.1, h.2⟩
  top := ⟨relates_refines.top, rfl⟩
  clear h hwide hnarrow := ⟨relates_refines.clear h.1 hwide hnarrow, h.2⟩
  replace {a b} h huninit name c d := by
    have hreplace := relates_refines.replace h.1 huninit name c d
    have hswap : d.isMadeAt p = false → (if d = b then VType.ofClass name else d).isMadeAt p = false := by
      intro hd
      split
      · rfl
      · exact hd
    exact ⟨fun hcd => ⟨hreplace.1 hcd.1, hswap hcd.2⟩, fun hcd => ⟨hreplace.2 hcd.1, hswap hcd.2⟩⟩

end Exec

/-! ## Frames -/

namespace Frame

variable {setup : Setup} {r : Registry} {f g : Frame} {p : Nat}

/-- A frame has no object that the `new` at a position has made and whose constructor has not run. -/
def Lacks (p : Nat) (f : Frame) : Prop := ∀ t ∈ f.locals ++ f.stack, t.isMadeAt p = false

theorem lacks_iff : f.Lacks p ↔ (∀ t ∈ f.locals, t.isMadeAt p = false) ∧ ∀ t ∈ f.stack, t.isMadeAt p = false :=
  List.forall_mem_append

/-- What is above types that are not made there is not made there. -/
theorem not_isMadeAt_of_le {ts us : List VType} (h : List.Forall₂ (· ≤ ·) ts us) (hts : ∀ t ∈ ts, t.isMadeAt p = false) :
    ∀ u ∈ us, u.isMadeAt p = false := by
  intro u hu
  obtain ⟨k, hk⟩ := List.mem_iff_getElem?.mp hu
  obtain ⟨t, ht, hle⟩ := forall₂_getElem? h hk
  exact VType.isMadeAt_of_le (hts t (List.mem_of_getElem? ht)) hle

theorem Lacks.of_below (h : f.Lacks p) (hbelow : f.Below g) : g.Lacks p := by
  rw [lacks_iff] at h ⊢
  exact ⟨not_isMadeAt_of_le hbelow.locals h.1, not_isMadeAt_of_le (hbelow.stack.imp fun _ _ hrefines => hrefines.1) h.2⟩

theorem Lacks.pops (h : f.Lacks p) (hpops : Exec.Pops f g) : g.Lacks p := by
  rw [lacks_iff] at h ⊢
  refine ⟨?_, fun t ht => h.2 t (hpops.2.subset ht)⟩
  rw [hpops.1]
  exact h.1

theorem Lacks.after {op : Op} {position : Nat} (h : f.Lacks p) (hpaired : Exec.Paired f.locals)
    (hload : setup.method.constants.GivesProper) (hposition : position ≠ p)
    (hafter : f.after op (setup.context position) = .ok g) : g.Lacks p := by
  rw [lacks_iff] at h
  have hself : f.Related (fun a b => a.Refines b ∧ b.isMadeAt p = false) (fun a b => a ≤ b ∧ b.isMadeAt p = false) f :=
    ⟨List.forall₂_same.mpr fun t ht => ⟨.refl t, h.2 t ht⟩, List.forall₂_same.mpr fun t ht => ⟨le_refl t, h.1 t ht⟩,
      hpaired, hpaired⟩
  obtain ⟨⟨u, hrun⟩, -⟩ := after_eq_ok.mp hafter
  obtain ⟨f', -, hrelated⟩ := (Exec.relates_lacking p).run
    (fun index t ht => ⟨.refl t, (hload index t ht).isMadeAt p⟩)
    (fun _ _ name => ⟨.refl _, by simp [VType.isMadeAt, Setup.context, hposition]⟩) (storesAlike_of_after hafter) hself hrun
  rw [lacks_iff]
  constructor
  · intro t ht
    obtain ⟨k, hk⟩ := List.mem_iff_getElem?.mp ht
    obtain ⟨_, -, -, hmade⟩ := forall₂_getElem? hrelated.locals hk
    exact hmade
  · intro t ht
    obtain ⟨k, hk⟩ := List.mem_iff_getElem?.mp ht
    obtain ⟨_, -, -, hmade⟩ := forall₂_getElem? hrelated.stack hk
    exact hmade

/-- An instruction that runs on leaves no objects of another position, if it finds none. -/
theorem Lacks.onward {i : Instruction} (h : f.Lacks p) (hpaired : Exec.Paired f.locals)
    (hload : setup.method.constants.GivesProper) (hposition : i.position ≠ p)
    (hon : i.onward (setup.context i.position) f = some g) : g.Lacks p := by
  unfold Instruction.onward at hon
  split at hon
  · split at hon
    · simp at hon
    · exact h.after hpaired hload hposition (toOption_eq_some.mp hon)
  · split at hon
    · simp at hon
    · exact h.pops (Frame.pops_executeBranch (toOption_eq_some.mp hon))
  all_goals simp at hon

theorem Lacks.withoutUninitialized (h : f.Lacks p) : f.withoutUninitialized.Lacks p := by
  rw [lacks_iff] at h ⊢
  refine ⟨?_, h.2⟩
  intro t ht
  rcases mem_withoutUninitialized ht with rfl | hold
  · rfl
  · exact h.1 t hold

theorem Lacks.startFrame {entry : Nat} {start : Frame} (h : f.Lacks p)
    (hstart : Session.startFrame setup entry f = .ok start) : start.Lacks p := by
  obtain ⟨hlocals, hstack, -⟩ := Session.startFrame_eq_ok hstart
  rw [lacks_iff, hlocals, hstack]
  refine ⟨(lacks_iff.mp h.withoutUninitialized).1, ?_⟩
  intro t ht
  rcases List.mem_cons.mp ht with rfl | hold
  · rfl
  · exact (lacks_iff.mp h).2 t hold

theorem Lacks.continuation {call ret : Frame} (hcall : call.Lacks p) (hret : ret.Lacks p) (returnLocal : Nat)
    (accessed : Nat → Bool) : (Session.continuationFrame call ret returnLocal accessed).Lacks p := by
  apply Lacks.withoutUninitialized
  rw [lacks_iff] at hcall hret ⊢
  refine ⟨?_, hret.2⟩
  intro t ht
  rcases mem_returnedFrame ht with rfl | hold | hold
  · rfl
  · exact hcall.1 t hold
  · exact hret.1 t hold

/-- A frame that is regular and has no objects of the `new` at a position stays so at all other instructions. -/
theorem lasting_lacks (hcaught : ∀ handler ∈ setup.handlers, handler.catchType.isInitialized = true)
    (hload : setup.method.constants.GivesProper) (p : Nat) :
    Lasting setup (· ≠ p) fun r f => f.Regular setup r ∧ f.Lacks p := by
  have hreference : ∀ t : VType, t.isInitialized = true → t.isReference = true := by
    intro t ht
    cases t <;> simp [VType.isInitialized] at ht <;> rfl
  have hR := lasting_regular fun handler hmem => hreference _ (hcaught handler hmem)
  exact
    { mono := fun h hgrows => ⟨h.1.mono hgrows, h.2⟩
      pops := fun h hpops => ⟨h.1.pops hpops, h.2.pops hpops⟩
      after := fun h hat hafter => ⟨h.1.after hafter, h.2.after h.1.paired hload hat hafter⟩
      caught := by
        intro r f caught handler h hmem hcatch
        refine ⟨hR.caught h.1 hmem hcatch, ?_⟩
        obtain ⟨rfl, -⟩ := checkHeight_eq_ok.mp hcatch
        rw [lacks_iff]
        refine ⟨(lacks_iff.mp h.2).1, ?_⟩
        intro t ht
        rw [List.mem_singleton.mp ht]
        exact VType.IsProper.isMadeAt (Or.inl (hcaught handler hmem)) p
      startFrame := fun h hentry hstart => ⟨h.1.startFrame hentry hstart, h.2.startFrame hstart⟩
      continuation := fun returnLocal accessed hcall hret =>
        ⟨hcall.1.continuation hret.1 returnLocal accessed, hcall.2.continuation hret.2 returnLocal accessed⟩
      absorb := by
        intro r f other h hother
        refine ⟨h.1.absorb hother.1, ?_⟩
        obtain ⟨hbelow, -⟩ := absorb_above (h.1.length.trans hother.1.length.symm)
        rw [lacks_iff]
        exact ⟨not_isMadeAt_of_le hbelow.locals (lacks_iff.mp h.2).1, (lacks_iff.mp h.2).2⟩
      merge := by
        intro r f incoming merged h hincoming hmerge
        obtain ⟨hbelow, -⟩ := merge_above hmerge (h.1.length.trans hincoming.1.length.symm)
        exact ⟨h.1.merge hincoming.1 hmerge, h.2.of_below hbelow⟩ }

/-- A method starts without objects of its own. -/
theorem lacks_entry {thisClass : BinaryName} {isStatic isConstructor : Bool} {descriptor : MethodDescriptor}
    {maxLocals : Nat} (h : entry thisClass isStatic isConstructor descriptor maxLocals = .ok f) (p : Nat) : f.Lacks p := by
  unfold entry at h
  obtain ⟨locals, hlocals, h⟩ := bind_eq_ok.mp h
  obtain rfl := pure_eq_ok.mp h
  rw [lacks_iff]
  refine ⟨?_, by simp⟩
  intro t ht
  rcases mem_placeFrom hlocals ht with hfree | htype
  · rw [List.eq_of_mem_replicate hfree]
    rfl
  · unfold parameterTypes at htype
    dsimp only at htype
    rcases List.mem_append.mp htype with hreceiver | hparameter
    · split at hreceiver
      · simp at hreceiver
      · split at hreceiver
        · rw [List.mem_singleton.mp hreceiver]
          rfl
        · rw [List.mem_singleton.mp hreceiver]
          rfl
    · obtain ⟨field, -, rfl⟩ := List.mem_map.mp hparameter
      exact (VType.isProper_ofField field).isMadeAt p

end Frame

/-! ## The course of the analysis -/

/-- A run can end one instruction later. -/
theorem Setup.Runs.snoc {setup : Setup} {first last : Nat} {i i' : Instruction} (h : setup.Runs first last)
    (hi : setup.body.get? last = some i) (hon : i.runsOn = true) (hi' : setup.body.get? (last + 1) = some i')
    (hhead : ¬ setup.IsHead i'.position) : setup.Runs first (last + 1) := by
  have hle := h.le
  refine ⟨by omega, ?_, ?_⟩
  · intro k hk hlt
    rcases Nat.lt_or_eq_of_le (Nat.lt_succ_iff.mp hlt) with hless | rfl
    · exact h.on k hk hless
    · exact ⟨i, hi, hon⟩
  · intro k j hk hle' hj
    rcases Nat.lt_or_eq_of_le hle' with hless | rfl
    · exact h.inside k j hk (by omega) hj
    · obtain rfl := Option.some.inj (hi'.symm.trans hj)
      exact hhead

namespace Session

/-- A position lies on the run from a place with a state. -/
def Rooted (setup : Setup) (s : Session) (p : Nat) : Prop :=
  ∃ q st, s.states.get? q = some st ∧ setup.RunsTo q p

theorem Rooted.mono {setup : Setup} {s t : Session} {p : Nat} (h : s.Rooted setup p) (hlearns : s.Learns t) :
    t.Rooted setup p := by
  obtain ⟨q, st, hst, hruns⟩ := h
  obtain ⟨st', hst', -⟩ := hlearns.states q st hst
  exact ⟨q, st', hst', hruns⟩

end Session

namespace Inference

variable {setup : Setup} {code : List UInt8} {entry : Frame} {look : Option (Nat × Frame)} {s : Session}

/-- Where the analysis has been and where it is about to look lies on runs from places with states. -/
structure Roots (setup : Setup) (look : Option (Nat × Frame)) (s : Session) : Prop where
  visited : ∀ p, s.visited.contains p = true → s.Rooted setup p
  rets : ∀ p f, s.retFrames.get? p = some f → s.visited.contains p = true
  look : ∀ index frame i, look = some (index, frame) → setup.body.get? index = some i → s.Rooted setup i.position

/-- A look, whatever comes after it. -/
theorem Roots.looksAt {t : Session} {index : Nat} {i : Instruction} {frame : Frame} (h : Roots setup (some (index, frame)) s)
    (hi : setup.body.get? index = some i) (hlooks : Session.LooksAt setup s i frame t) : Roots setup none t := by
  have hlearns := hlooks.grows.toLearns
  refine ⟨?_, ?_, by simp⟩
  · intro p hp
    rcases hlooks.visited p hp with hold | rfl
    · exact (h.visited p hold).mono hlearns
    · exact (h.look index frame i rfl hi).mono hlearns
  · intro p f hget
    rcases hlooks.retFrames p with hsame | ⟨rfl, -⟩
    · rw [hsame] at hget
      exact hlearns.visited p (h.rets p f hget)
    · exact hlooks.handled.visited

theorem Passes.rooted (hp : setup.Prepared code) (hentry : entry.Fits setup) (h : Passes setup entry look s) :
    Roots setup look s := by
  induction h with
  | @enter s h =>
    have hs := Session.mergeInto_eq h
    refine ⟨?_, ?_, by simp⟩
    · intro p hvisited
      rw [hs] at hvisited
      simp [Session.start] at hvisited
    · intro p f hget
      rw [hs] at hget
      simp [Session.start] at hget
  | @state s position index rest st _ hwork hst hindex ih =>
    have hlearns := Session.learns_pop rest hst
    refine ⟨fun p hvisited => (ih.visited p hvisited).mono hlearns, ih.rets, ?_⟩
    intro index' frame' i heq hi
    obtain ⟨rfl, -⟩ := Prod.mk.inj (Option.some.inj heq)
    obtain ⟨j, hj, hposition⟩ := hp.tiles.indexOf?_eq_some_iff.mp hindex
    obtain rfl := Option.some.inj (hi.symm.trans hj)
    have hroot : s.Rooted setup i.position := ⟨position, st, hst, index, index, i, i, hi, hposition, .refl _ _, hi, rfl⟩
    exact hroot.mono hlearns
  | @ret s position index rest frame _ hwork hst hframe hindex ih =>
    have hlearns := Session.learns_worklist s rest
    refine ⟨fun p hvisited => (ih.visited p hvisited).mono hlearns, ih.rets, ?_⟩
    intro index' frame' i heq hi
    obtain ⟨rfl, -⟩ := Prod.mk.inj (Option.some.inj heq)
    obtain ⟨j, hj, hposition⟩ := hp.tiles.indexOf?_eq_some_iff.mp hindex
    obtain rfl := Option.some.inj (hi.symm.trans hj)
    rw [hposition]
    exact (ih.visited position (ih.rets position frame hframe)).mono hlearns
  | @nothing s position rest _ hwork hst hframe ih =>
    exact ⟨fun p hvisited => (ih.visited p hvisited).mono (Session.learns_worklist s rest), ih.rets, by simp⟩
  | left hpasses hi hone ih => exact ih.looksAt hi (hpasses.looksAt hp hentry hi hone).1
  | met hpasses hi hone hi' hmerged hmerge ih =>
    have hroots := ih.looksAt hi (hpasses.looksAt hp hentry hi hone).1
    obtain ⟨hstep, -⟩ := hpasses.merged hp hentry hi hone hmerged hmerge
    refine ⟨fun p hvisited => (hroots.visited p (hstep.sameVisited ▸ hvisited)).mono hstep.toLearns, ?_, by simp⟩
    intro p f hget
    rw [hstep.retFrames] at hget
    exact hstep.toLearns.visited p (hroots.rets p f hget)
  | @on s t index i i' frame next hpasses hi hone hi' hmerged ih =>
    obtain ⟨hlooks, hnext⟩ := hpasses.looksAt hp hentry hi hone
    have hroots := ih.looksAt hi hlooks
    refine ⟨hroots.visited, hroots.rets, ?_⟩
    intro index' frame' j heq hj
    obtain ⟨rfl, -⟩ := Prod.mk.inj (Option.some.inj heq)
    obtain rfl := Option.some.inj (hi'.symm.trans hj)
    -- the run to the instruction goes on to the next one, which is no head
    have hhead : ¬ setup.IsHead i'.position := by simp [hpasses.isHead_iff hp hentry hi hone, hmerged]
    obtain ⟨q, st, hst, first, last, k, l, hk, hposition, hruns, hl, hlast⟩ :=
      (ih.look index frame i rfl hi).mono hlooks.grows.toLearns
    obtain rfl := hp.tiles.index_eq hl hi hlast
    exact ⟨q, st, hst, first, last + 1, k, i', hk, hposition,
      hruns.snoc hi (Instruction.runsOn_of_onward hnext.symm) hi' hhead, hi', rfl⟩

/-- The instruction at a position is not looked at with objects of its own. -/
structure Spares (setup : Setup) (p : Nat) (look : Option (Nat × Frame)) (s : Session) : Prop where
  /-- Before it is looked at for the first time, there are no such objects. -/
  unseen : s.visited.contains p = false → s.All (fun r f => f.Regular setup r ∧ f.Lacks p) ∧
    ∀ index frame, look = some (index, frame) → frame.Regular setup s.registry ∧ frame.Lacks p
  /-- States from which control runs straight to it have none. -/
  states : ∀ q st, s.states.get? q = some st → setup.RunsTo q p → st.frame.Lacks p
  look : ∀ index frame i, look = some (index, frame) → setup.body.get? index = some i → setup.RunsTo i.position p →
    frame.Lacks p

/-- Once there is a state from which control runs straight to a position, such states do not get objects of it. -/
theorem Spares.states_of_learns {p : Nat} {t : Session} (hp : setup.Prepared code) (h : Spares setup p look s)
    (hroot : s.Rooted setup p) (hwf : s.WellFormed setup) (hwf' : t.WellFormed setup) (hlearns : s.Learns t) :
    ∀ q st, t.states.get? q = some st → setup.RunsTo q p → st.frame.Lacks p := by
  intro q st hst hruns
  obtain ⟨q₀, st₀, hst₀, hruns₀⟩ := hroot
  have hsame : q = q₀ := by
    obtain ⟨first, last, i, j, hi, rfl, hrun, hj, hlast⟩ := hruns
    obtain ⟨first₀, last₀, i₀, j₀, hi₀, rfl, hrun₀, hj₀, hlast₀⟩ := hruns₀
    obtain rfl := hp.tiles.index_eq hj hj₀ (hlast.trans hlast₀.symm)
    obtain rfl := hrun.first_eq hrun₀ hi (hwf'.states _ st hst).2 hi₀ (hwf.states _ st₀ hst₀).2
    rw [Option.some.inj (hi.symm.trans hi₀)]
  subst hsame
  obtain ⟨st', hst', hbelow⟩ := hlearns.states q st₀ hst₀
  obtain rfl := Option.some.inj (hst.symm.trans hst')
  exact (h.states q st₀ hst₀ hruns₀).of_below hbelow

section

variable {p : Nat} (hp : setup.Prepared code) (hfits : entry.Fits setup)
  (hcaught : ∀ handler ∈ setup.handlers, handler.catchType.isInitialized = true)
  (hload : setup.method.constants.GivesProper)

include hp hfits hcaught hload

/-- A look keeps this, whatever comes after it. -/
theorem Spares.looksAt {t : Session} {index : Nat} {i : Instruction} {frame : Frame} {next : Option Frame}
    (h : Spares setup p (some (index, frame)) s) (hpasses : Passes setup entry (some (index, frame)) s)
    (hi : setup.body.get? index = some i) (hone : s.interpretOne setup i frame = .ok (t, next)) :
    Spares setup p none t ∧
      ∀ g, next = some g → t.visited.contains p = false → g.Regular setup t.registry ∧ g.Lacks p := by
  obtain ⟨hwf, -, hframe, -⟩ := hpasses.keeps hp hfits
  obtain ⟨hlooks, -⟩ := Session.interpretOne_spec hp hwf hframe hi hone
  by_cases hseen : s.visited.contains p = true ∨ i.position = p
  · -- there is a state that leads there already
    have hroots := hpasses.rooted hp hfits
    have hroot : s.Rooted setup p := by
      rcases hseen with hvisited | rfl
      · exact hroots.visited p hvisited
      · exact hroots.look index frame i rfl hi
    have hvisited : t.visited.contains p = true := by
      rcases hseen with hvisited | rfl
      · exact hlooks.grows.toLearns.visited p hvisited
      · exact hlooks.handled.visited
    refine ⟨⟨?_, h.states_of_learns hp hroot hwf hlooks.wellFormed hlooks.grows.toLearns, by simp⟩, ?_⟩
    · intro hunseen
      rw [hvisited] at hunseen
      simp at hunseen
    · intro g _ hunseen
      rw [hvisited] at hunseen
      simp at hunseen
  · -- there are no objects from there yet
    push Not at hseen
    obtain ⟨hall, hhand⟩ := h.unseen (by simpa using hseen.1)
    obtain ⟨hall', hnext⟩ := Session.Sound.interpretOne (Frame.lasting_lacks hcaught hload p)
      ⟨hall, hhand index frame rfl⟩ hseen.2 hone
    refine ⟨⟨fun _ => ⟨hall', by simp⟩, ?_, by simp⟩, fun g hg _ => hnext g hg⟩
    intro q st hst _
    exact (hall' st.frame (.state hst)).2

omit hcaught hload in
/-- What is looked at with the frame at a `ret` is that `ret` alone. -/
theorem Passes.not_runsTo_of_ret {position first : Nat} {frame : Frame} {j : Instruction}
    (hplain : ∃ index i op, setup.body.get? index = some i ∧ i.position = p ∧ i.flow = .plain op)
    (h : Passes setup entry none s) (hframe : s.retFrames.get? position = some frame)
    (hj : setup.body.get? first = some j) (hposition : j.position = position) : ¬ setup.RunsTo j.position p := by
  obtain ⟨-, -, hrecalls⟩ := h.keeps hp hfits
  obtain ⟨_, j', slot, hj', hposition', hret, -⟩ := hrecalls position frame hframe
  obtain rfl := hp.tiles.index_eq hj hj' (hposition.trans hposition'.symm)
  obtain rfl := Option.some.inj (hj.symm.trans hj')
  rintro ⟨first', last, k, l, hk, hfirst, hruns, hl, hlast⟩
  obtain rfl := hp.tiles.index_eq hk hj hfirst
  obtain ⟨index, i, op, hi, rfl, hflow⟩ := hplain
  obtain rfl := hp.tiles.index_eq hl hi hlast
  obtain rfl := Option.some.inj (hl.symm.trans hi)
  rcases Nat.lt_or_eq_of_le hruns.le with hlt | rfl
  · obtain ⟨_, hfound, hon⟩ := hruns.on first' (Nat.le_refl _) hlt
    obtain rfl := Option.some.inj (hj.symm.trans hfound)
    simp [Instruction.runsOn, hret] at hon
  · obtain rfl := Option.some.inj (hj.symm.trans hl)
    rw [hret] at hflow
    simp at hflow

theorem Passes.spares (hregular : ∀ r, entry.Regular setup r) (hlacks : entry.Lacks p)
    (hplain : ∃ index i op, setup.body.get? index = some i ∧ i.position = p ∧ i.flow = .plain op)
    (h : Passes setup entry look s) : Spares setup p look s := by
  have hP := Frame.lasting_lacks hcaught hload p
  induction h with
  | @enter s h =>
    have hall : s.All fun r f => f.Regular setup r ∧ f.Lacks p :=
      (Session.all_start _ _ _).mergeInto hP ⟨hregular _, hlacks⟩ h
    exact ⟨fun _ => ⟨hall, by simp⟩, fun q st hst _ => (hall st.frame (.state hst)).2, by simp⟩
  | @state s position first rest st _ hwork hst hindex ih =>
    refine ⟨?_, ?_, ?_⟩
    · intro hunseen
      obtain ⟨hall, -⟩ := ih.unseen hunseen
      have hframe := hall st.frame (.state hst)
      have hpopped : { s with worklist := rest }.All fun r f => f.Regular setup r ∧ f.Lacks p :=
        hall.congr hP rfl rfl rfl (.refl _)
      refine ⟨hpopped.insertState hframe, ?_⟩
      intro index' frame' heq
      obtain ⟨-, rfl⟩ := Prod.mk.inj (Option.some.inj heq)
      exact hframe
    · exact PositionMap.forall_insert (P := fun q (st : TypeState) => setup.RunsTo q p → st.frame.Lacks p) ih.states
        (ih.states position st hst)
    · intro index' frame' j heq hj hruns
      obtain ⟨rfl, rfl⟩ := Prod.mk.inj (Option.some.inj heq)
      obtain ⟨k, hk, rfl⟩ := hp.tiles.indexOf?_eq_some_iff.mp hindex
      obtain rfl := Option.some.inj (hj.symm.trans hk)
      exact ih.states j.position st hst hruns
  | @ret s position first rest frame hpasses hwork hst hframe hindex ih =>
    refine ⟨?_, ih.states, ?_⟩
    · intro hunseen
      obtain ⟨hall, -⟩ := ih.unseen hunseen
      refine ⟨hall.congr hP rfl rfl rfl (.refl _), ?_⟩
      intro index' frame' heq
      obtain ⟨-, rfl⟩ := Prod.mk.inj (Option.some.inj heq)
      exact hall _ (.ret hframe)
    · intro index' frame' j heq hj hruns
      obtain ⟨rfl, rfl⟩ := Prod.mk.inj (Option.some.inj heq)
      obtain ⟨k, hk, hposition⟩ := hp.tiles.indexOf?_eq_some_iff.mp hindex
      obtain rfl := Option.some.inj (hj.symm.trans hk)
      exact absurd hruns (hpasses.not_runsTo_of_ret hp hfits hplain hframe hj hposition)
  | @nothing s position rest _ hwork hst hframe ih =>
    refine ⟨?_, ih.states, by simp⟩
    intro hunseen
    exact ⟨(ih.unseen hunseen).1.congr hP rfl rfl rfl (.refl _), by simp⟩
  | left hpasses hi hone ih => exact (ih.looksAt hp hfits hcaught hload hpasses hi hone).1
  | @met s t u index i i' frame next hpasses hi hone hi' hmerged hmerge ih =>
    obtain ⟨hspares, hnext⟩ := ih.looksAt hp hfits hcaught hload hpasses hi hone
    obtain ⟨-, ⟨hwf, -⟩, -⟩ := (hpasses.keeps hp hfits).look hp hpasses hi hone
    obtain ⟨hstep, hwf', -⟩ := hpasses.merged hp hfits hi hone hmerged hmerge
    by_cases hvisited : t.visited.contains p = true
    · have hroot : t.Rooted setup p :=
        ((hpasses.rooted hp hfits).looksAt hi (hpasses.looksAt hp hfits hi hone).1).visited p hvisited
      refine ⟨?_, hspares.states_of_learns hp hroot hwf hwf' hstep.toLearns, by simp⟩
      intro hunseen
      rw [hstep.sameVisited, hvisited] at hunseen
      simp at hunseen
    · have hunseen : t.visited.contains p = false := by simpa using hvisited
      have hall := (hspares.unseen hunseen).1.mergeInto hP (hnext next rfl hunseen) hmerge
      exact ⟨fun _ => ⟨hall, by simp⟩, fun q st hst _ => (hall st.frame (.state hst)).2, by simp⟩
  | @on s t index i i' frame next hpasses hi hone hi' hmerged ih =>
    obtain ⟨hspares, hnext⟩ := ih.looksAt hp hfits hcaught hload hpasses hi hone
    have hhead : ¬ setup.IsHead i'.position := by simp [hpasses.isHead_iff hp hfits hi hone, hmerged]
    obtain ⟨-, honward⟩ := hpasses.looksAt hp hfits hi hone
    obtain ⟨-, -, hframe, -⟩ := hpasses.keeps hp hfits
    refine ⟨fun hunseen => ⟨(hspares.unseen hunseen).1, ?_⟩, hspares.states, ?_⟩
    · intro index' frame' heq
      obtain ⟨-, rfl⟩ := Prod.mk.inj (Option.some.inj heq)
      exact hnext _ rfl hunseen
    · intro index' frame' j heq hj hruns
      obtain ⟨rfl, rfl⟩ := Prod.mk.inj (Option.some.inj heq)
      obtain rfl := Option.some.inj (hi'.symm.trans hj)
      obtain ⟨first, last, k, l, hk, hfirst, hrun, hl, hlast⟩ := hruns
      obtain rfl := hp.tiles.index_eq hk hi' hfirst
      -- the run begins one instruction earlier already
      have hearlier := hrun.step hi (Instruction.runsOn_of_onward honward.symm) hi' hhead
      have hposition : i.position ≠ p := by
        intro heq
        obtain rfl := hp.tiles.index_eq hi hl (heq.trans hlast.symm)
        have := hrun.le
        omega
      have hlacking := ih.look index frame i rfl hi ⟨index, last, i, l, hi, rfl, hearlier, hl, hlast⟩
      exact hlacking.onward hframe.paired hload hposition honward.symm

/-- **The frames that an operation is looked at with** have no objects that it made before. -/
theorem Passes.lacks {index : Nat} {i : Instruction} {op : Op} {frame : Frame} (hregular : ∀ r, entry.Regular setup r)
    (hlacks : entry.Lacks i.position) (h : Passes setup entry (some (index, frame)) s)
    (hi : setup.body.get? index = some i) (hflow : i.flow = .plain op) : frame.Lacks i.position :=
  (h.spares hp hfits hcaught hload hregular hlacks ⟨index, i, op, hi, rfl, hflow⟩).look index frame i rfl hi
    ⟨index, index, i, i, hi, rfl, .refl _ _, hi, rfl⟩

end

end Inference

end Bytecode
