import Bytecode.Proofs.Accesses
import Bytecode.Proofs.Fixpoint
import Mathlib.Data.List.Induction

/-!
# Regular frames

Whatever is done with a frame, it keeps its form: a slot for every local, values of two words whole, a stack that is not
too high, and no subroutine in it that is not registered.

* `Frame.Regular`: the form of a frame;
* `Frame.Regular.stacked`: the values on its stack lie end to end;
* `Frame.Regular.after`, `Frame.Regular.merge`, `Frame.Regular.startFrame`, `Frame.Regular.continuation`: operations, merges,
  calls and returns keep it;
* `Frame.regular_entry`: a method starts with it;
* `Frame.Lasting`: properties of frames that are kept whatever is done with a frame.
-/

namespace Bytecode

/-! ## Types -/

namespace VType

/-- If it is a return address, its subroutine is registered. -/
def Backed (r : Registry) (t : VType) : Prop := ∀ entry, t = .returnAddress entry → (r.get? entry).isSome

variable {r r' : Registry} {a b t : VType}

theorem Backed.mono (h : t.Backed r) (hgrows : r.Grows r') : t.Backed r' := by
  rintro entry rfl
  obtain ⟨sub, hsub⟩ := Option.isSome_iff_exists.mp (h entry rfl)
  obtain ⟨sub', hsub', -⟩ := hgrows entry sub hsub
  exact Option.isSome_of_eq_some hsub'

theorem Backed.of_le (h : a.Backed r) (hle : a ≤ b) : b.Backed r := by
  rintro entry rfl
  cases hle with
  | refl => exact h entry rfl

theorem backed_top : VType.top.Backed r := by
  intro entry h
  simp at h

theorem IsValue.backed (h : t.IsValue) : t.Backed r := by
  rintro entry rfl
  exact absurd rfl (h.2 entry)

end VType

namespace Exec

/-- Operations leave what can be used on the stack, with the return addresses of registered subroutines only, if they
find such values there. -/
theorem relates_backed (r : Registry) :
    Relates (fun a b => a.Refines b ∧ b ≠ .top ∧ b.Backed r) (fun a b => a ≤ b ∧ b.Backed r) where
  width h := relates_refines.width h.1
  numeric h := relates_refines.numeric h.1
  initialized h := relates_refines.initialized h.1
  this h := relates_refines.this h.1
  uninitialized h := relates_refines.uninitialized h.1
  address h := relates_refines.address h.1
  value h hproper := ⟨relates_refines.value h hproper, hproper.isValue.1, hproper.isValue.backed⟩
  load h hreference := by
    have hvalue := VType.isValue_of_isReference hreference
    exact ⟨relates_refines.load h.1 hreference, hvalue.1, hvalue.backed⟩
  loadNumeric h := relates_refines.loadNumeric h.1
  store h := ⟨relates_refines.store h.1, h.2.2⟩
  top := ⟨relates_refines.top, VType.backed_top⟩
  clear h hwide hnarrow := ⟨relates_refines.clear h.1 hwide hnarrow, h.2⟩
  replace h huninit name c d := by
    have hreplace := relates_refines.replace h.1 huninit name c d
    have hobject : (VType.ofClass name).IsValue := VType.isValue_of_isReference rfl
    constructor
    · rintro ⟨hcd, hproper, hbacked⟩
      refine ⟨hreplace.1 hcd, ?_⟩
      split
      · exact ⟨hobject.1, hobject.backed⟩
      · exact ⟨hproper, hbacked⟩
    · rintro ⟨hcd, hbacked⟩
      refine ⟨hreplace.2 hcd, ?_⟩
      split
      · exact hobject.backed
      · exact hbacked

/-- Taking values off the stack, and nothing else. -/
def Pops (f g : Frame) : Prop := g = { f with stack := g.stack } ∧ g.stack <:+ f.stack

theorem Pops.refl (f : Frame) : Pops f f := ⟨rfl, List.suffix_rfl⟩

theorem Pops.trans {f g h : Frame} (hfg : Pops f g) (hgh : Pops g h) : Pops f h := by
  obtain ⟨hg, hsuffix⟩ := hfg
  obtain ⟨hh, hsuffix'⟩ := hgh
  refine ⟨?_, hsuffix'.trans hsuffix⟩
  rw [hg] at hh
  exact hh

theorem pops_pop_then {α : Type} {k : VType → Exec α} (hk : ∀ t (f : Frame) a g, k t f = .ok (a, g) → g = f) :
    Within Pops (pop >>= k) := by
  intro f a g h
  obtain ⟨t, f', hpop, hrest⟩ := state_bind_eq_ok.mp h
  obtain rfl := hk t f' a g hrest
  obtain ⟨hstack, hg⟩ := pop_eq_ok.mp hpop
  exact ⟨hg, hstack ▸ List.suffix_cons t g.stack⟩

theorem pops_popExactly (expected : VType) : Within Pops (popExactly expected) := by
  apply pops_pop_then
  intro t f a g h
  split at h
  · exact absurd h (fails_incompatible _ _ _ _)
  · exact (Prod.mk.inj (state_pure_eq_ok.mp h)).2.symm

theorem pops_popReference : Within Pops popReference := by
  apply pops_pop_then
  intro t f a g h
  split at h
  · exact absurd h (fails_incompatible _ _ _ _)
  · exact (Prod.mk.inj (state_pure_eq_ok.mp h)).2.symm

theorem pops_twice {x y : Exec Unit} (hx : Within Pops x) (hy : Within Pops y) : Within Pops (x >>= fun _ => y) := by
  intro f a h hrun
  obtain ⟨u, g, hfirst, hrest⟩ := state_bind_eq_ok.mp hrun
  exact (hx f u g hfirst).trans (hy g a h hrest)

end Exec

namespace Frame

theorem pops_executeBranch {f g : Frame} {kind : BranchKind} (h : f.executeBranch kind = .ok g) : Exec.Pops f g := by
  unfold executeBranch at h
  dsimp only at h
  obtain ⟨⟨u, g'⟩, hrun, rfl⟩ := map_eq_ok.mp h
  cases kind with
  | ifInt => exact Exec.pops_popExactly _ f u g' hrun
  | ifIntCompare => exact Exec.pops_twice (Exec.pops_popExactly _) (Exec.pops_popExactly _) f u g' hrun
  | ifRefCompare => exact Exec.pops_twice Exec.pops_popReference Exec.pops_popReference f u g' hrun
  | ifNull => exact Exec.pops_popReference f u g' hrun
  | goto =>
    obtain ⟨-, rfl⟩ := Prod.mk.inj (state_pure_eq_ok.mp hrun)
    exact .refl f

theorem pops_executeSelect {f g : Frame} (h : f.executeSelect = .ok g) : Exec.Pops f g := by
  unfold executeSelect at h
  obtain ⟨⟨u, g'⟩, hrun, rfl⟩ := map_eq_ok.mp h
  exact Exec.pops_popExactly _ f u g' hrun

/-! ## Offsets on the stack -/

theorem stackHeight_append (ts us : List VType) : stackHeight (ts ++ us) = stackHeight ts + stackHeight us := by
  unfold stackHeight
  rw [List.foldl_append, foldl_width]
  rfl

theorem stackHeight_reverse (ts : List VType) : stackHeight ts.reverse = stackHeight ts := by
  induction ts with
  | nil => rfl
  | cons t ts ih =>
    rw [List.reverse_cons, stackHeight_append, ih, stackHeight_cons, stackHeight_cons, stackHeight_nil]
    omega

end Frame

/-- Laying values end to end, as long as offsets fit into a word, puts each of them at the height of those in front. -/
theorem Tiling.ofList_types {ts : List VType} (h : Frame.stackHeight ts < 0x10000000000000000) :
    (Tiling.ofList 0 ts).size = ts.length ∧ (Tiling.ofList 0 ts).stop = Frame.stackHeight ts ∧
      ∀ front t rest, ts = front ++ t :: rest →
        (Tiling.ofList 0 ts).get? front.length = some (Frame.stackHeight front, t) := by
  -- the last value is laid last, so the induction takes values off the end
  induction ts using List.reverseRecOn with
  | nil => exact ⟨rfl, rfl, by simp⟩
  | append_singleton ts last ih =>
    have hpush : Tiling.ofList 0 (ts ++ [last]) = (Tiling.ofList 0 ts).push last := by
      unfold Tiling.ofList Tiling.append
      rw [List.foldl_append]
      rfl
    rw [Frame.stackHeight_append, Frame.stackHeight_cons, Frame.stackHeight_nil, Nat.add_zero] at h
    obtain ⟨hsize, hstop, htiles⟩ := ih (by omega)
    rw [hpush]
    refine ⟨?_, ?_, ?_⟩
    · rw [Tiling.size_push, hsize, List.length_append, List.length_singleton]
    · rw [Tiling.stop_push_of_lt _ _ (by rw [hstop]; exact h), hstop, Frame.stackHeight_append, Frame.stackHeight_cons,
        Frame.stackHeight_nil, Nat.add_zero]
    · intro front t rest hsplit
      unfold Tiling.get? Tiling.push
      unfold Tiling.size at hsize
      rw [Array.getElem?_push, hsize]
      rcases List.eq_nil_or_concat rest with rfl | ⟨rest', last', rfl⟩
      · obtain ⟨rfl, hlast⟩ := List.append_inj' hsplit rfl
        rw [if_pos rfl, hstop, List.singleton_inj.mp hlast]
      · have hfront : ts ++ [last] = (front ++ t :: rest') ++ [last'] := by simpa using hsplit
        obtain ⟨rfl, -⟩ := List.append_inj' hfront rfl
        rw [if_neg (by simp)]
        exact htiles front t rest' rfl

namespace Frame

/-- Every value on the stack is recorded at the height of the values below it.  Heights are computed from the values, so
this holds of every stack whose height fits into a word. -/
def Stacked (f : Frame) : Prop :=
  f.stackTiling.size = f.stack.length ∧ f.stackTiling.stop = f.height ∧
    ∀ above t below, f.stack = above ++ t :: below → f.stackTiling.get? below.length = some (stackHeight below, t)

/-! ## Regular frames -/

/-- The form of a frame: it has all locals, with whole values in them, and a stack that is not too high.  No subroutine
is active twice, and those that are active are registered.  If constants stand for values, everything on the stack can be
used, and so are those that return addresses belong to. -/
structure Regular (setup : Setup) (r : Registry) (f : Frame) : Prop where
  length : f.locals.length = setup.maxLocals
  paired : Exec.Paired f.locals
  height : f.height ≤ setup.maxStack
  nodup : f.nesting.Nodup
  active : f.nesting.Known r
  usable : setup.method.constants.GivesValues → ∀ t ∈ f.stack, t ≠ .top
  backed : setup.method.constants.GivesValues → ∀ t ∈ f.locals ++ f.stack, t.Backed r

variable {setup : Setup} {r r' : Registry} {f g : Frame}

theorem Regular.stacked (h : f.Regular setup r) : f.Stacked := by
  have hlt : setup.maxStack < 65536 := setup.method.code.maxStack.toNat_lt
  have hheight : stackHeight f.stack ≤ setup.maxStack := h.height
  obtain ⟨hsize, hstop, htiles⟩ := @Tiling.ofList_types f.stack.reverse (by rw [stackHeight_reverse]; omega)
  refine ⟨?_, ?_, ?_⟩
  · rw [List.length_reverse] at hsize
    exact hsize
  · rw [stackHeight_reverse] at hstop
    exact hstop
  · intro above t below hsplit
    have hfound := htiles below.reverse t above.reverse (by rw [hsplit]; simp)
    rw [List.length_reverse, stackHeight_reverse] at hfound
    exact hfound

theorem Regular.mono (h : f.Regular setup r) (hgrows : r.Grows r') : f.Regular setup r' :=
  { h with
    active := h.active.mono hgrows
    backed := fun hvalues t ht => (h.backed hvalues t ht).mono hgrows }

theorem Regular.pops (h : f.Regular setup r) (hpops : Exec.Pops f g) : g.Regular setup r := by
  obtain ⟨hg, hsuffix⟩ := hpops
  have hmem : ∀ t ∈ g.stack, t ∈ f.stack := fun t => hsuffix.subset (a := t)
  have hheight : stackHeight g.stack ≤ stackHeight f.stack := by
    obtain ⟨front, hfront⟩ := hsuffix
    rw [← hfront, stackHeight_append]
    omega
  rw [hg]
  refine ⟨h.length, h.paired, hheight.trans h.height, h.nodup, h.active, ?_, ?_⟩
  · intro hvalues t ht
    exact h.usable hvalues t (hmem t ht)
  · intro hvalues t ht
    rcases List.mem_append.mp ht with hlocal | hstack
    · exact h.backed hvalues t (List.mem_append_left _ hlocal)
    · exact h.backed hvalues t (List.mem_append_right _ (hmem t hstack))

/-- Everything in a frame is below itself, in the sense of `Exec.relates_backed`. -/
theorem Regular.related (h : f.Regular setup r) (hvalues : setup.method.constants.GivesValues) :
    f.Related (fun a b => a.Refines b ∧ b ≠ .top ∧ b.Backed r) (fun a b => a ≤ b ∧ b.Backed r) f := by
  refine ⟨List.forall₂_same.mpr ?_, List.forall₂_same.mpr ?_, h.paired, h.paired⟩
  · intro t ht
    exact ⟨.refl t, h.usable hvalues t ht, h.backed hvalues t (List.mem_append_right _ ht)⟩
  · intro t ht
    exact ⟨le_refl t, h.backed hvalues t (List.mem_append_left _ ht)⟩

theorem Regular.after {op : Op} {position : Nat} (h : f.Regular setup r)
    (hafter : f.after op (setup.context position) = .ok g) : g.Regular setup r := by
  have hshape := after_effect Exec.sameShape_effect hafter
  obtain ⟨⟨u, hrun⟩, hheight⟩ := after_eq_ok.mp hafter
  have hrelated : setup.method.constants.GivesValues →
      ∃ f' : Frame, f'.Related (fun a b => a.Refines b ∧ b ≠ .top ∧ b.Backed r) (fun a b => a ≤ b ∧ b.Backed r) g := by
    intro hvalues
    have hnew : ∀ name, (VType.uninitialized position name).IsValue := fun name => VType.isValue_of_isReference rfl
    obtain ⟨f', -, hrel⟩ := (Exec.relates_backed r).run
      (fun index t ht => ⟨.refl t, (hvalues index t ht).1, (hvalues index t ht).backed⟩)
      (fun _ _ name => ⟨.refl _, (hnew name).1, (hnew name).backed⟩) (storesAlike_of_after hafter) (h.related hvalues) hrun
    exact ⟨f', hrel⟩
  refine ⟨hshape.1.trans h.length, after_effect Exec.paired_effect hafter h.paired, hheight, ?_, ?_, ?_, ?_⟩
  · rw [hshape.2]
    exact h.nodup
  · rw [hshape.2]
    exact h.active
  · intro hvalues t ht
    obtain ⟨f', hrel⟩ := hrelated hvalues
    obtain ⟨k, hk⟩ := List.mem_iff_getElem?.mp ht
    obtain ⟨_, -, -, hproper, -⟩ := forall₂_getElem? hrel.stack hk
    exact hproper
  · intro hvalues t ht
    obtain ⟨f', hrel⟩ := hrelated hvalues
    rcases List.mem_append.mp ht with hlocal | hstack
    · obtain ⟨k, hk⟩ := List.mem_iff_getElem?.mp hlocal
      obtain ⟨_, -, -, hbacked⟩ := forall₂_getElem? hrel.locals hk
      exact hbacked
    · obtain ⟨k, hk⟩ := List.mem_iff_getElem?.mp hstack
      obtain ⟨_, -, -, -, hbacked⟩ := forall₂_getElem? hrel.stack hk
      exact hbacked

/-- What is above backed types is backed. -/
theorem backed_of_le {ts us : List VType} (h : List.Forall₂ (· ≤ ·) ts us) (hbacked : ∀ t ∈ ts, t.Backed r) :
    ∀ u ∈ us, u.Backed r := by
  intro u hu
  obtain ⟨k, hk⟩ := List.mem_iff_getElem?.mp hu
  obtain ⟨t, ht, hle⟩ := forall₂_getElem? h hk
  exact (hbacked t (List.mem_of_getElem? ht)).of_le hle

theorem Regular.absorb {other : Frame} (h : f.Regular setup r) (hother : other.Regular setup r) :
    (f.absorb other).Regular setup r := by
  have hlength : f.locals.length = other.locals.length := by rw [h.length, hother.length]
  obtain ⟨hbelow, -⟩ := absorb_above hlength
  refine ⟨hbelow.locals.length_eq.symm.trans h.length, paired_normalized _, h.height,
    Nesting.nodup_merge h.nodup hother.nodup, h.active.merge hother.active, h.usable, ?_⟩
  intro hvalues t ht
  rcases List.mem_append.mp ht with hlocal | hstack
  · exact backed_of_le hbelow.locals (fun u hu => h.backed hvalues u (List.mem_append_left _ hu)) t hlocal
  · exact h.backed hvalues t (List.mem_append_right _ hstack)

theorem Regular.merge {incoming merged : Frame} (h : f.Regular setup r) (hincoming : incoming.Regular setup r)
    (hmerge : f.merge incoming = .ok merged) : merged.Regular setup r := by
  have hlength : f.locals.length = incoming.locals.length := by rw [h.length, hincoming.length]
  obtain ⟨hbelow, -⟩ := merge_above hmerge hlength
  have habsorb := h.absorb hincoming
  have hheight := height_eq_of_refines hbelow.stack
  unfold Frame.merge at hmerge
  split at hmerge
  · simp at hmerge
  · split at hmerge
    · simp at hmerge
    · rename_i stack hstack
      obtain rfl := Except.ok.inj hmerge
      refine ⟨habsorb.length, habsorb.paired, hheight ▸ h.height, habsorb.nodup, habsorb.active,
        fun _ => joinStacks_ne_top hstack, ?_⟩
      intro hvalues t ht
      rcases List.mem_append.mp ht with hlocal | hjoined
      · exact habsorb.backed hvalues t (List.mem_append_left _ hlocal)
      · refine backed_of_le (hbelow.stack.imp fun _ _ hrefines => hrefines.1) ?_ t hjoined
        intro u hu
        exact h.backed hvalues u (List.mem_append_right _ hu)

theorem mem_withoutUninitialized {t : VType} (h : t ∈ f.withoutUninitialized.locals) : t = .top ∨ t ∈ f.locals := by
  obtain ⟨u, hu, rfl⟩ := List.mem_map.mp h
  split
  · exact Or.inl rfl
  · exact Or.inr hu

theorem Regular.withoutUninitialized (h : f.Regular setup r) : f.withoutUninitialized.Regular setup r := by
  refine ⟨?_, paired_withoutUninitialized h.paired, h.height, h.nodup, h.active, h.usable, ?_⟩
  · rw [Frame.withoutUninitialized, List.length_map]
    exact h.length
  · intro hvalues t ht
    rcases List.mem_append.mp ht with hlocal | hstack
    · rcases mem_withoutUninitialized hlocal with rfl | hold
      · exact VType.backed_top
      · exact h.backed hvalues t (List.mem_append_left _ hold)
    · exact h.backed hvalues t (List.mem_append_right _ hstack)

/-- A frame in which an exception is caught. -/
theorem Regular.caught {handler : Handler} {caught : Frame} (h : f.Regular setup r)
    (hreference : handler.catchType.isReference = true) (hcaught : Session.Caught setup handler f caught) :
    caught.Regular setup r := by
  obtain ⟨rfl, hheight⟩ := checkHeight_eq_ok.mp hcaught
  have hvalue := VType.isValue_of_isReference hreference
  refine ⟨h.length, h.paired, hheight, h.nodup, h.active, ?_, ?_⟩
  · intro _ t ht
    rw [List.mem_singleton.mp ht]
    exact hvalue.1
  · intro hvalues t ht
    rcases List.mem_append.mp ht with hlocal | hstack
    · exact h.backed hvalues t (List.mem_append_left _ hlocal)
    · rw [List.mem_singleton.mp hstack]
      exact hvalue.backed

/-- A subroutine starts with a regular frame, once it is registered. -/
theorem Regular.startFrame {entry : Nat} {start : Frame} (h : f.Regular setup r) (hentry : (r.get? entry).isSome)
    (hstart : Session.startFrame setup entry f = .ok start) : start.Regular setup r := by
  obtain ⟨hlocals, hstack, hnesting, hnew, hheight⟩ := Session.startFrame_eq_ok hstart
  have hwithout := h.withoutUninitialized
  refine ⟨?_, ?_, hheight, ?_, ?_, ?_, ?_⟩
  · rw [hlocals]
    exact hwithout.length
  · rw [hlocals]
    exact hwithout.paired
  · rw [hnesting]
    exact List.nodup_append.mpr ⟨h.nodup, List.nodup_singleton entry, by
      rintro a ha b hb rfl
      exact hnew (List.mem_singleton.mp hb ▸ ha)⟩
  · rw [hnesting]
    intro callee hcallee
    rcases List.mem_append.mp hcallee with hactive | hself
    · exact h.active callee hactive
    · rw [List.mem_singleton.mp hself]
      exact hentry
  · intro hvalues t ht
    rw [hstack] at ht
    rcases List.mem_cons.mp ht with rfl | hold
    · simp
    · exact h.usable hvalues t hold
  · intro hvalues t ht
    rw [hlocals, hstack] at ht
    rcases List.mem_append.mp ht with hlocal | hpushed
    · exact hwithout.backed hvalues t (List.mem_append_left _ hlocal)
    · rcases List.mem_cons.mp hpushed with rfl | hold
      · intro callee heq
        rw [← VType.returnAddress.inj heq]
        exact hentry
      · exact h.backed hvalues t (List.mem_append_right _ hold)

theorem mem_normalized {ts : List VType} {t : VType} (h : t ∈ normalized ts) : t = .top ∨ t ∈ ts := by
  induction ts with
  | nil => simp [normalized] at h
  | cons u us ih =>
    unfold normalized at h
    rcases List.mem_cons.mp h with hhead | hrest
    · split at hhead
      · exact Or.inl hhead
      · rw [hhead]
        exact Or.inr (List.mem_cons_self ..)
    · exact (ih hrest).imp_right (List.mem_cons_of_mem u)

/-- The locals behind a call are those at the call or at the `ret`, or cannot be used. -/
theorem mem_returnedFrame {call ret : Frame} {returnLocal : Nat} {accessed : Nat → Bool} {t : VType}
    (h : t ∈ (Session.returnedFrame call ret returnLocal accessed).locals) :
    t = .top ∨ t ∈ call.locals ∨ t ∈ ret.locals := by
  rcases mem_normalized h with htop | hmem
  · exact Or.inl htop
  · obtain ⟨⟨⟨atCall, atRet⟩, k⟩, hzip, rfl⟩ := List.mem_map.mp hmem
    have hpair := List.of_mem_zip (List.fst_mem_of_mem_zipIdx hzip)
    dsimp only
    split
    · exact Or.inr (Or.inl hpair.1)
    · exact Or.inr (Or.inr hpair.2)

/-- The frame behind a call, made of the one at the call and the one at the `ret`. -/
theorem Regular.continuation {call ret : Frame} (hcall : call.Regular setup r) (hret : ret.Regular setup r)
    (returnLocal : Nat) (accessed : Nat → Bool) :
    (Session.continuationFrame call ret returnLocal accessed).Regular setup r := by
  apply Regular.withoutUninitialized
  refine ⟨?_, paired_normalized _, hret.height, hcall.nodup, hcall.active, hret.usable, ?_⟩
  · unfold Session.returnedFrame normalizeLocals
    rw [← (le_normalized _).length_eq, List.length_map, List.length_zipIdx, List.length_zip, hcall.length, hret.length,
      Nat.min_self]
  · intro hvalues t ht
    rcases List.mem_append.mp ht with hlocal | hstack
    · rcases mem_returnedFrame hlocal with rfl | hold | hold
      · exact VType.backed_top
      · exact hcall.backed hvalues t (List.mem_append_left _ hold)
      · exact hret.backed hvalues t (List.mem_append_left _ hold)
    · exact hret.backed hvalues t (List.mem_append_right _ hstack)

theorem mem_placeFrom {next : Nat} {locals types placed : List VType} (h : placeFrom next locals types = .ok placed)
    {t : VType} (ht : t ∈ placed) : t ∈ locals ∨ t ∈ types := by
  induction types generalizing next locals with
  | nil =>
    obtain rfl := Except.ok.inj h
    exact Or.inl ht
  | cons u rest ih =>
    unfold placeFrom at h
    split at h
    · simp at h
    · rcases ih h with hset | hrest
      · rcases List.mem_or_eq_of_mem_set hset with hold | rfl
        · exact Or.inl hold
        · exact Or.inr (List.mem_cons_self ..)
      · exact Or.inr (List.mem_cons_of_mem u hrest)

theorem isValue_of_mem_parameterTypes {thisClass : BinaryName} {isStatic isConstructor : Bool}
    {descriptor : MethodDescriptor} {t : VType} (h : t ∈ parameterTypes thisClass isStatic isConstructor descriptor) :
    t.IsValue := by
  unfold parameterTypes at h
  dsimp only at h
  rcases List.mem_append.mp h with hreceiver | hparameter
  · split at hreceiver
    · simp at hreceiver
    · apply VType.isValue_of_isReference
      split at hreceiver
      · rw [List.mem_singleton.mp hreceiver]
        rfl
      · rw [List.mem_singleton.mp hreceiver]
        rfl
  · obtain ⟨field, -, rfl⟩ := List.mem_map.mp hparameter
    exact (VType.isProper_ofField field).isValue

/-- A method starts with a regular frame. -/
theorem regular_entry {thisClass : BinaryName} {isStatic isConstructor : Bool} {descriptor : MethodDescriptor}
    (h : entry thisClass isStatic isConstructor descriptor setup.maxLocals = .ok f) (r : Registry) : f.Regular setup r := by
  have hfits := fits_entry h
  unfold entry at h
  obtain ⟨locals, hlocals, h⟩ := bind_eq_ok.mp h
  obtain rfl := pure_eq_ok.mp h
  refine ⟨hfits.length, hfits.paired, Nat.zero_le _, hfits.nodup, by simp [Nesting.Known], by simp, ?_⟩
  intro _ t ht
  rw [List.append_nil] at ht
  rcases mem_placeFrom hlocals ht with hfree | htype
  · rw [List.eq_of_mem_replicate hfree]
    exact VType.backed_top
  · exact (isValue_of_mem_parameterTypes htype).backed

/-! ## Properties that last -/

/-- A property of frames, by what is registered, that is kept whatever is done with a frame.  Operations need to keep it
at some positions only. -/
structure Lasting (setup : Setup) (At : Nat → Prop) (P : Registry → Frame → Prop) : Prop where
  mono : ∀ {r r' f}, P r f → r.Grows r' → P r' f
  pops : ∀ {r f g}, P r f → Exec.Pops f g → P r g
  after : ∀ {r f g op position}, P r f → At position → f.after op (setup.context position) = .ok g → P r g
  caught : ∀ {r f caught} {handler : Handler}, P r f → handler ∈ setup.handlers →
    Session.Caught setup handler f caught → P r caught
  startFrame : ∀ {r f start entry}, P r f → (r.get? entry).isSome → Session.startFrame setup entry f = .ok start → P r start
  continuation : ∀ {r call ret} (returnLocal : Nat) (accessed : Nat → Bool), P r call → P r ret →
    P r (Session.continuationFrame call ret returnLocal accessed)
  absorb : ∀ {r f other}, P r f → P r other → P r (f.absorb other)
  merge : ∀ {r f incoming merged}, P r f → P r incoming → f.merge incoming = .ok merged → P r merged

theorem lasting_regular (hcaught : ∀ handler ∈ setup.handlers, handler.catchType.isReference = true) :
    Lasting setup (fun _ => True) fun r f => f.Regular setup r where
  mono h := h.mono
  pops h := h.pops
  after h _ := h.after
  caught h hmem := h.caught (hcaught _ hmem)
  startFrame h := h.startFrame
  continuation returnLocal accessed hcall hret := hcall.continuation hret returnLocal accessed
  absorb h := h.absorb
  merge h := h.merge

end Frame

end Bytecode
