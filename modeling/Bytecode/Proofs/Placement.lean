import Bytecode.Proofs.Copies
import Bytecode.Proofs.Tables

/-!
# Places of copies

Copies are found by the position that they come from and by the call that control comes from, and each has a
place in the new code.

* `Expansion.Reaches`: a copy of a position in a call or in one around it; there is at most one;
* `Layout.startOf`: where the copies start, end to end;
* `Verified.Lays` collects what is known of the layout of a method, and `Verified.lays_of_layout` proves it.
-/

namespace Bytecode

variable {v : Verified} {e : Expansion} {c : Copy} {code : List UInt8}

namespace Expansion

/-- The numbers of the copies of a position, one by one. -/
theorem copiesOf_ofCopies {codeLength position : Nat} (copies : List Copy) (hposition : position < codeLength) :
    (ofCopies codeLength copies).copiesOf position
      = (copies.zipIdx.filter fun numbered => numbered.1.position = position).map Prod.snd := by
  have hfold : ∀ numbered : List (Copy × Nat),
      let places := numbered.foldr
        (fun (entry : Copy × Nat) (places : PositionMap (List Nat)) =>
          places.insert entry.1.position (entry.2 :: (places.get? entry.1.position).getD []))
        (.empty codeLength)
      places.bound = codeLength ∧ (places.get? position).getD []
        = (numbered.filter fun numbered => numbered.1.position = position).map Prod.snd := by
    intro numbered
    induction numbered with
    | nil => simp
    | cons first rest ih =>
      obtain ⟨c, number⟩ := first
      obtain ⟨hbound, hget⟩ := ih
      rw [List.foldr_cons]
      refine ⟨by rw [PositionMap.bound_insert, hbound], ?_⟩
      rw [PositionMap.get?_insert, hbound, List.filter_cons]
      by_cases hc : c.position = position
      · rw [if_pos ⟨hc, hposition⟩, if_pos (by simpa using hc), hc, List.map_cons, ← hget]
        rfl
      · rw [if_neg fun h => hc h.1, if_neg (by simpa using hc)]
        exact hget
  exact (hfold copies.zipIdx).2

/-- The copy with a number is one of a position, in a call or in one around it. -/
def Reaches (e : Expansion) (position : Nat) (source : Call) (number : Nat) : Prop :=
  ∃ c, e.copies[number]? = some c ∧ c.position = position ∧ c.call.path <+: source.path

/-- The places list the copies of a position below a bound. -/
def Indexed (e : Expansion) (codeLength : Nat) : Prop :=
  ∀ position number, position < codeLength →
    (number ∈ e.copiesOf position ↔ ∃ c, e.copies[number]? = some c ∧ c.position = position)

theorem indexed_ofCopies (codeLength : Nat) (copies : List Copy) :
    (ofCopies codeLength copies).Indexed codeLength := by
  intro position number hposition
  rw [copiesOf_ofCopies copies hposition]
  have hcopies : (ofCopies codeLength copies).copies[number]? = copies[number]? := by simp [ofCopies]
  rw [hcopies]
  constructor
  · intro hmem
    obtain ⟨⟨c, number'⟩, hfilter, rfl⟩ := List.mem_map.mp hmem
    obtain ⟨hnumbered, hc⟩ := List.mem_filter.mp hfilter
    exact ⟨c, List.mem_zipIdx_iff_getElem?.mp hnumbered, by simpa using hc⟩
  · rintro ⟨c, hc, hc'⟩
    exact List.mem_map.mpr ⟨(c, number), List.mem_filter.mpr ⟨List.mem_zipIdx_iff_getElem?.mpr hc,
      by simpa using hc'⟩, rfl⟩

/-- The copies are those of the instructions that run in the calls of a method, and none is missing. -/
structure ListsCopies (v : Verified) (e : Expansion) : Prop where
  isCopy : ∀ (k : Nat) (c : Copy), e.copies[k]? = some c → v.IsCopy c
  complete : ∀ (call : Call) (index : Nat) (i : Instruction), v.IsCall call → v.body.get? index = some i →
    v.activeAt? index = some call.nesting →
    ∃ (k : Nat) (c : Copy), e.copies[k]? = some c ∧ c.index = index ∧ c.instruction = i ∧ c.call = call

/-- A copy of an instruction is reached from a call exactly if the subroutines active at the instruction are the
outermost ones of the call. -/
theorem ListsCopies.reaches_iff {call : Call} {index : Nat}
    {i : Instruction} {nesting : Nesting} (h : e.ListsCopies v) (hb : v.body.Tiles code) (hcall : v.IsCall call)
    (hi : v.body.get? index = some i) (hactive : v.activeAt? index = some nesting) :
    (∃ number, e.Reaches i.position call number) ↔ nesting <+: call.nesting := by
  constructor
  · rintro ⟨number, c, hc, hposition, houter⟩
    have hcopy := h.isCopy number c hc
    obtain rfl := hb.index_eq hcopy.get hi hposition
    obtain rfl := Option.some.inj (hactive.symm.trans hcopy.active)
    exact houter.map _
  · intro houter
    -- the calls up to the depth of the nesting make up a call with just these subroutines
    have hfront : call.path.take nesting.length <+: call.path := List.take_prefix _ _
    have hnesting : (⟨call.path.take nesting.length⟩ : Call).nesting = nesting := by
      unfold Call.nesting at houter ⊢
      rw [List.map_take]
      exact (List.prefix_iff_eq_take.mp houter).symm
    have hisCall := hcall.of_prefix hfront
    obtain ⟨number, c, hc, -, rfl, houtside⟩ := h.complete _ index i hisCall hi (by rw [hnesting, hactive])
    refine ⟨number, c, hc, rfl, ?_⟩
    rw [houtside]
    exact hfront

/-- If an instruction is copied at most once in each call, control in a call can reach at most one copy of a position. -/
theorem ListsCopies.reaches_unique {position number number' : Nat}
    {source : Call} (h : e.ListsCopies v) (hb : v.body.Tiles code)
    (hunique : ∀ (j k : Nat) (c c' : Copy), e.copies[j]? = some c → e.copies[k]? = some c' → c.index = c'.index →
      c.call = c'.call → j = k)
    (hreach : e.Reaches position source number) (hreach' : e.Reaches position source number') : number = number' := by
  obtain ⟨c, hc, hposition, houter⟩ := hreach
  obtain ⟨c', hc', hposition', houter'⟩ := hreach'
  have hcopy := h.isCopy number c hc
  have hcopy' := h.isCopy number' c' hc'
  have hindex : c.index = c'.index := hb.index_eq hcopy.get hcopy'.get (hposition.trans hposition'.symm)
  have hnesting : c.call.nesting = c'.call.nesting := by
    have hactive := hcopy.active
    rw [hindex, hcopy'.active] at hactive
    exact (Option.some.inj hactive).symm
  -- two calls around one call are the same if equally many subroutines are active in them
  have hlength : c.call.path.length = c'.call.path.length := by
    have := congrArg List.length hnesting
    rwa [Call.nesting, Call.nesting, List.length_map, List.length_map] at this
  have hpath : c.call.path = c'.call.path :=
    (List.prefix_of_prefix_length_le houter houter' (Nat.le_of_eq hlength)).eq_of_length hlength
  exact hunique number number' c c' hc hc' hindex (by rw [← Call.mk.injEq] at hpath; exact hpath)

/-- What resolution finds is reached, and it finds something if anything is reached. -/
theorem resolve_spec {codeLength position : Nat} {source : Call} (he : e.Indexed codeLength)
    (hposition : position < codeLength) :
    (∀ number, e.resolve position source = .ok number → e.Reaches position source number) ∧
      ((∃ number, e.Reaches position source number) → ∃ number, e.resolve position source = .ok number) := by
  unfold resolve
  simp only
  cases hfind : (e.copiesOf position).find? fun number => e.copies[number]?.any fun c => source.canGoto c.call with
  | some found =>
    refine ⟨?_, fun _ => ⟨found, rfl⟩⟩
    intro number h
    obtain rfl := Except.ok.inj h
    obtain ⟨c, hc, hposition'⟩ := (he position found hposition).mp (List.mem_of_find?_eq_some hfind)
    have hany := List.find?_some hfind
    rw [hc] at hany
    exact ⟨c, hc, hposition', Call.canGoto_iff.mp hany⟩
  | none =>
    refine ⟨by simp, ?_⟩
    rintro ⟨number, c, hc, hposition', houter⟩
    have hmem := (he position number hposition).mpr ⟨c, hc, hposition'⟩
    have hany := List.find?_eq_none.mp hfind number hmem
    rw [hc] at hany
    exact absurd (Call.canGoto_iff.mpr houter) hany

/-- What resolution finds is a copy. -/
theorem exists_copy_of_resolve {position number : Nat} {source : Call}
    (h : e.resolve position source = .ok number) : ∃ c, e.copies[number]? = some c := by
  unfold resolve at h
  dsimp only at h
  split at h
  · rename_i found hfind
    obtain rfl := Except.ok.inj h
    have hany := List.find?_some hfind
    obtain ⟨c, hc, -⟩ := (Option.any_eq_true _ _).mp hany
    exact ⟨c, hc⟩
  · simp at h

/-- What the target of a `ret` is found from. -/
theorem returnTarget_eq_ok {target : Nat} (h : e.returnTarget v c = .ok target) :
    ∃ popped left caller around jsr, v.framesPopped.get? c.position = some popped ∧
      c.call.ancestor? (popped - 1) = some left ∧ left.caller? = some caller ∧ left.parent? = some around ∧
      v.body.startingAt? caller = some jsr ∧ e.resolve jsr.next around = .ok target := by
  unfold returnTarget at h
  dsimp only at h
  split at h
  · simp at h
  · rename_i popped hpopped
    split at h
    · rename_i caller around hcaller haround
      split at h
      · simp at h
      · rename_i jsr hjsr
        obtain ⟨left, hleft, hcaller⟩ := Option.bind_eq_some_iff.mp hcaller
        obtain ⟨left', hleft', haround⟩ := Option.bind_eq_some_iff.mp haround
        obtain rfl := Option.some.inj (hleft.symm.trans hleft')
        exact ⟨popped, left, caller, around, jsr, hpopped, hleft, hcaller, haround, hjsr, h⟩
    · simp at h

/-- Resolution only looks at the calls of copies. -/
theorem resolve_congr {e' : Expansion} (hplaces : e'.places = e.places)
    (hcalls : ∀ number : Nat, e'.copies[number]?.map Copy.call = e.copies[number]?.map Copy.call) :
    e'.resolve = e.resolve := by
  funext position source
  unfold resolve copiesOf
  rw [hplaces]
  have hreachable : (fun number : Nat => e'.copies[number]?.any fun c => source.canGoto c.call)
      = fun number : Nat => e.copies[number]?.any fun c => source.canGoto c.call := by
    funext number
    have hmap : ∀ o : Option Copy, (o.any fun c => source.canGoto c.call) = (o.map Copy.call).any source.canGoto := by
      intro o
      cases o <;> rfl
    rw [hmap, hmap, hcalls number]
  simp only [hreachable]

theorem bindReturn_eq_ok {c' : Copy} {number : Nat} (h : e.bindReturn v (c, number) = .ok c') :
    c' = { c with disposition := c'.disposition } ∧
      match c.instruction.flow with
      | .ret _ => ∃ target, e.returnTarget v c = .ok target ∧
          c'.disposition = if target = number + 1 then .skip else .retGoto target
      | _ => c'.disposition = c.disposition := by
  unfold bindReturn at h
  simp only at h
  cases hflow : c.instruction.flow with
  | ret index =>
    rw [hflow] at h
    obtain ⟨target, htarget, h⟩ := bind_eq_ok.mp h
    obtain rfl := pure_eq_ok.mp h
    exact ⟨rfl, target, htarget, rfl⟩
  | plain op =>
    rw [hflow] at h
    obtain rfl := Except.ok.inj h
    exact ⟨rfl, rfl⟩
  | branch kind target =>
    rw [hflow] at h
    obtain rfl := Except.ok.inj h
    exact ⟨rfl, rfl⟩
  | select default cases =>
    rw [hflow] at h
    obtain rfl := Except.ok.inj h
    exact ⟨rfl, rfl⟩
  | jsr target =>
    rw [hflow] at h
    obtain rfl := Except.ok.inj h
    exact ⟨rfl, rfl⟩

/-- An expansion in which the returns of another are found: what becomes of each `ret` changes, and nothing
else. -/
structure Binds (v : Verified) (e e' : Expansion) : Prop where
  places : e'.places = e.places
  old : ∀ (k : Nat) (c' : Copy), e'.copies[k]? = some c' →
    ∃ c, e.copies[k]? = some c ∧ e.bindReturn v (c, k) = .ok c'
  new : ∀ (k : Nat) (c : Copy), e.copies[k]? = some c → ∃ d, e'.copies[k]? = some { c with disposition := d }

theorem binds_of_bindReturns {e' : Expansion} (h : e.bindReturns v = .ok e') : Binds v e e' := by
  unfold bindReturns at h
  obtain ⟨copies, hcopies, h⟩ := bind_eq_ok.mp h
  obtain rfl := pure_eq_ok.mp h
  have hforall := mapM_eq_ok.mp hcopies
  have hget : ∀ k : Nat, copies.toArray[k]? = copies[k]? := fun k => List.getElem?_toArray
  refine ⟨rfl, ?_, ?_⟩
  · intro k c' hc'
    obtain ⟨⟨c, k'⟩, hnumbered, hbind⟩ := forall₂_getElem? hforall ((hget k).symm.trans hc')
    rw [List.getElem?_zipIdx, Array.getElem?_toList] at hnumbered
    obtain ⟨c₀, hc₀, heq⟩ := Option.map_eq_some_iff.mp hnumbered
    obtain ⟨rfl, rfl⟩ := Prod.mk.inj heq
    rw [Nat.zero_add] at hbind
    exact ⟨c₀, hc₀, hbind⟩
  · intro k c hc
    have hnumbered : e.copies.toList.zipIdx[k]? = some (c, k) := by
      rw [List.getElem?_zipIdx, Array.getElem?_toList, hc]
      simp
    obtain ⟨c', hc', hbind⟩ := forall₂_getElem? hforall.flip hnumbered
    rw [(bindReturn_eq_ok hbind).1] at hc'
    exact ⟨_, (hget k).trans hc'⟩

theorem Binds.resolve_eq {e' : Expansion} (h : Binds v e e') : e'.resolve = e.resolve := by
  apply resolve_congr h.places
  intro k
  cases hc : e.copies[k]? with
  | some c =>
    obtain ⟨d, hc'⟩ := h.new k c hc
    rw [hc']
    rfl
  | none =>
    cases hc' : e'.copies[k]? with
    | none => rfl
    | some c' =>
      obtain ⟨c, hsome, -⟩ := h.old k c' hc'
      rw [hc] at hsome
      simp at hsome

theorem Binds.indexed {e' : Expansion} {codeLength : Nat} (h : Binds v e e')
    (he : e.Indexed codeLength) : e'.Indexed codeLength := by
  intro position number hposition
  unfold copiesOf
  rw [h.places]
  refine (he position number hposition).trans ⟨?_, ?_⟩
  · rintro ⟨c, hc, hc'⟩
    obtain ⟨d, hnew⟩ := h.new number c hc
    exact ⟨_, hnew, hc'⟩
  · rintro ⟨c', hc', hposition'⟩
    obtain ⟨c, hc, hbind⟩ := h.old number c' hc'
    rw [(bindReturn_eq_ok hbind).1] at hposition'
    exact ⟨c, hc, hposition'⟩

end Expansion

namespace Layout

/-- Where the copy with a number starts; behind the last one, where the code ends. -/
def startOf (l : Layout) (number : Nat) : Nat := l.positions[number]?.getD l.size

theorem placeFrom_spec (copies : List Copy) (positions : Array Nat) (position : Nat) :
    let placed := placeFrom positions position copies
    let start (k : Nat) : Nat := placed.1[k]?.getD placed.2
    placed.1.size = positions.size + copies.length ∧
      (∀ k < positions.size, placed.1[k]? = positions[k]?) ∧
      start positions.size = position ∧
      ∀ k c, copies[k]? = some c →
        start (positions.size + k + 1) = start (positions.size + k) + c.sizeAt (start (positions.size + k)) := by
  induction copies generalizing positions position with
  | nil => simp [placeFrom]
  | cons c rest ih =>
    obtain ⟨hsize, hfront, hstart, hnext⟩ := ih (positions.push position) (position + c.sizeAt position)
    rw [Array.size_push] at hsize hfront hstart hnext
    have hown : (placeFrom (positions.push position) (position + c.sizeAt position) rest).1[positions.size]?
        = some position := by
      rw [hfront _ (Nat.lt_succ_self _), Array.getElem?_push_size]
    refine ⟨?_, ?_, ?_, ?_⟩
    · rw [placeFrom, hsize, List.length_cons]
      omega
    · intro k hk
      rw [placeFrom, hfront k (by omega), Array.getElem?_push, if_neg (by omega)]
    · simp only [placeFrom, hown, Option.getD_some]
    · intro k c' hc'
      cases k with
      | zero =>
        obtain rfl : c = c' := by simpa using hc'
        simp only [placeFrom, Nat.add_zero, hown, Option.getD_some]
        exact hstart
      | succ k =>
        rw [List.getElem?_cons_succ] at hc'
        have hlater := hnext k c' hc'
        have hindex : positions.size + (k + 1) = positions.size + 1 + k := by omega
        simp only [placeFrom, hindex]
        exact hlater

/-- Copies are laid end to end. -/
theorem ofExpansion_spec {l : Layout} (h : ofExpansion e = .ok l) :
    l.expansion = e ∧ l.positions.size = e.copies.size ∧ l.size ≤ maxCodeLength ∧ l.startOf 0 = 0 ∧
      ∀ (number : Nat) (c : Copy), e.copies[number]? = some c →
        l.startOf (number + 1) = l.startOf number + c.sizeAt (l.startOf number) := by
  unfold ofExpansion at h
  simp only at h
  split at h
  · simp at h
  · rename_i hlarge
    obtain rfl := Except.ok.inj h
    obtain ⟨hsize, -, hstart, hnext⟩ := placeFrom_spec e.copies.toList #[] 0
    refine ⟨rfl, by simpa using hsize, Nat.le_of_not_lt hlarge, hstart, ?_⟩
    intro number c hc
    have hlater := hnext number c (by rw [Array.getElem?_toList]; exact hc)
    simp only [Array.size_empty, Nat.zero_add] at hlater
    exact hlater

end Layout

namespace Verified

/-- What is known of the layout of a method, by the numbers of the copies. -/
structure Lays (v : Verified) (code : List UInt8) (l : Layout) : Prop where
  tiles : v.body.Tiles code
  isCopy : ∀ (k : Nat) (c : Copy), l.expansion.copies[k]? = some c → v.IsCopy c
  /-- An instruction is copied at most once in each call, -/
  unique : ∀ (j k : Nat) (c c' : Copy), l.expansion.copies[j]? = some c → l.expansion.copies[k]? = some c' →
    c.index = c'.index → c.call = c'.call → j = k
  /-- and copied it is in each call with the subroutines active there. -/
  complete : ∀ (call : Call) (index : Nat) (i : Instruction), v.IsCall call → v.body.get? index = some i →
    v.activeAt? index = some call.nesting →
    ∃ (k : Nat) (c : Copy), l.expansion.copies[k]? = some c ∧ c.index = index ∧ c.instruction = i ∧ c.call = call
  follows : ∀ (k : Nat) (c : Copy) (i : Instruction), l.expansion.copies[k]? = some c →
    (∀ target, c.instruction.flow ≠ .jsr target) → v.body.get? (c.index + 1) = some i →
    v.activeAt? (c.index + 1) = some c.call.nesting →
    ∃ c', l.expansion.copies[k + 1]? = some c' ∧ c'.index = c.index + 1 ∧ c'.instruction = i ∧ c'.call = c.call
  leaf : ∀ (k : Nat) (c : Copy), l.expansion.copies[k]? = some c → (∀ target, c.instruction.flow ≠ .jsr target) →
    (∀ index, c.instruction.flow ≠ .ret index) → c.disposition = v.leafDisposition c.instruction
  jsr : ∀ (k : Nat) (c : Copy) (target : Nat), l.expansion.copies[k]? = some c →
    c.instruction.flow = .jsr target → c.disposition = .jsrGoto (c.call.child target c.position) ∨
      c.disposition = .skip ∧ ∃ entry, l.expansion.copies[k + 1]? = some entry ∧ entry.position = target ∧
        entry.call = c.call.child target c.position
  ret : ∀ (k : Nat) (c : Copy) (index : UInt16), l.expansion.copies[k]? = some c →
    c.instruction.flow = .ret index → ∃ target, l.expansion.returnTarget v c = .ok target ∧
      c.disposition = if target = k + 1 then .skip else .retGoto target
  indexed : l.expansion.Indexed code.length
  positions_size : l.positions.size = l.expansion.copies.size
  size_le : l.size ≤ Layout.maxCodeLength
  start_zero : l.startOf 0 = 0
  start_succ : ∀ (k : Nat) (c : Copy), l.expansion.copies[k]? = some c →
    l.startOf (k + 1) = l.startOf k + c.sizeAt (l.startOf k)

theorem split_of_getElem? {copies : List Copy} {k : Nat} (h : copies[k]? = some c) :
    copies = copies.take k ++ c :: copies.drop (k + 1) := by
  obtain ⟨hlt, rfl⟩ := List.getElem?_eq_some_iff.mp h
  rw [List.getElem_cons_drop hlt, List.take_append_drop]

theorem getElem?_of_drop {copies rest : List Copy} {k : Nat} (h : copies.drop (k + 1) = c :: rest) :
    copies[k + 1]? = some c := by
  have hget : (copies.drop (k + 1))[0]? = copies[k + 1 + 0]? := List.getElem?_drop
  rw [h, List.getElem?_cons_zero] at hget
  exact hget.symm

/-- An instruction is copied at most once in each call. -/
theorem copies_inj (hb : v.body.Tiles code) {j k : Nat} {c' : Copy}
    (hc : v.copies[j]? = some c) (hc' : v.copies[k]? = some c') (hindex : c.index = c'.index) (hcall : c.call = c'.call) :
    j = k := by
  have hnodup : (v.copies.map fun c => (c.index, c.call)).Nodup := nodup_copiesIn hb .root
  have hlt := (List.getElem?_eq_some_iff.mp hc).1
  refine (List.getElem?_inj (by simpa using hlt) hnodup).mp ?_
  rw [List.getElem?_map, List.getElem?_map, hc, hc']
  exact congrArg some (Prod.ext hindex hcall)

theorem lays_of_layout {l : Layout} (hb : v.body.Tiles code) (h : v.layout = .ok l) : v.Lays code l := by
  unfold layout at h
  obtain ⟨e, hbindReturns, hlayout⟩ := bind_eq_ok.mp h
  obtain ⟨rfl, hsize, hlarge, hzero, hsucc⟩ := Layout.ofExpansion_spec hlayout
  have hbinds := Expansion.binds_of_bindReturns hbindReturns
  have hget : ∀ k : Nat, (Expansion.ofCopies v.body.codeLength v.copies).copies[k]? = v.copies[k]? := by
    intro k
    simp [Expansion.ofCopies]
  have hold := hbinds.old
  have hnew := hbinds.new
  simp only [hget] at hold hnew
  have hroot : v.IsCall .root := .root
  refine ⟨hb, ?_, ?_, ?_, ?_, ?_, ?_, ?_, ?_, hsize, hlarge, hzero, hsucc⟩
  · intro k c hc
    obtain ⟨c₀, hc₀, hbound⟩ := hold k c hc
    obtain ⟨hcall, hi, hactive⟩ := (isCopy_of_mem hroot (List.mem_of_getElem? hc₀)).1
    rw [(Expansion.bindReturn_eq_ok hbound).1]
    exact ⟨hcall, hi, hactive⟩
  · intro j k c c' hc hc' hindex hcall
    obtain ⟨c₀, hc₀, hbound⟩ := hold j c hc
    obtain ⟨c₀', hc₀', hbound'⟩ := hold k c' hc'
    rw [(Expansion.bindReturn_eq_ok hbound).1, (Expansion.bindReturn_eq_ok hbound').1] at hindex hcall
    exact copies_inj hb hc₀ hc₀' hindex hcall
  · intro call index i hcall hi hactive
    obtain ⟨c₀, hmem, rfl, rfl, rfl⟩ := exists_copy hcall hi hactive
    obtain ⟨k, hc₀⟩ := List.mem_iff_getElem?.mp hmem
    obtain ⟨d, hc⟩ := hnew k c₀ hc₀
    exact ⟨k, _, hc, rfl, rfl, rfl⟩
  · intro k c i hc hleaf hi hactive
    obtain ⟨c₀, hc₀, hbound⟩ := hold k c hc
    rw [(Expansion.bindReturn_eq_ok hbound).1] at hleaf hi hactive ⊢
    obtain ⟨d, rest, hrest⟩ := copiesIn_follows hroot (split_of_getElem? hc₀) hleaf hi hactive
    obtain ⟨d', hc'⟩ := hnew (k + 1) _ (getElem?_of_drop hrest)
    exact ⟨_, hc', rfl, rfl, rfl⟩
  · intro k c hc hjsr hret
    obtain ⟨c₀, hc₀, hbound⟩ := hold k c hc
    obtain ⟨hsame, hdisposition⟩ := Expansion.bindReturn_eq_ok hbound
    rw [hsame] at hjsr hret ⊢
    have hkept : c.disposition = c₀.disposition := by
      split at hdisposition
      · rename_i index hflow
        exact absurd hflow (hret index)
      · exact hdisposition
    rw [hkept]
    exact leafDisposition_of_mem hroot (List.mem_of_getElem? hc₀) hjsr
  · intro k c target hc hflow
    obtain ⟨c₀, hc₀, hbound⟩ := hold k c hc
    obtain ⟨hsame, hdisposition⟩ := Expansion.bindReturn_eq_ok hbound
    rw [hsame] at hflow ⊢
    have hflow₀ : c₀.instruction.flow = .jsr target := hflow
    simp only [hflow₀] at hdisposition
    rw [hdisposition]
    rcases jsrDisposition_of_split hroot (split_of_getElem? hc₀) hflow with hgoto | ⟨hskip, entry, rest, hrest, hentry⟩
    · exact Or.inl hgoto
    · obtain ⟨d, hc'⟩ := hnew (k + 1) _ (getElem?_of_drop hrest)
      exact Or.inr ⟨hskip, _, hc', hentry⟩
  · intro k c index hc hflow
    obtain ⟨c₀, hc₀, hbound⟩ := hold k c hc
    obtain ⟨hsame, hdisposition⟩ := Expansion.bindReturn_eq_ok hbound
    rw [hsame] at hflow
    have hflow₀ : c₀.instruction.flow = .ret index := hflow
    simp only [hflow₀] at hdisposition
    obtain ⟨target, htarget, hd⟩ := hdisposition
    refine ⟨target, ?_, hd⟩
    rw [hsame]
    unfold Expansion.returnTarget at htarget ⊢
    rw [hbinds.resolve_eq]
    exact htarget
  · apply hbinds.indexed
    rw [hb.codeLength_eq]
    exact Expansion.indexed_ofCopies code.length v.copies

namespace Lays

variable {v : Verified} {code : List UInt8} {l : Layout} {position number : Nat} {source : Call}

theorem listsCopies (h : v.Lays code l) : l.expansion.ListsCopies v := ⟨h.isCopy, h.complete⟩

/-- Control in a call can reach at most one copy of a position. -/
theorem reaches_unique (h : v.Lays code l) {number' : Nat} (hreach : l.expansion.Reaches position source number)
    (hreach' : l.expansion.Reaches position source number') : number = number' :=
  h.listsCopies.reaches_unique h.tiles h.unique hreach hreach'

/-- Resolution finds the copy that control can reach. -/
theorem resolve_eq_ok_iff (h : v.Lays code l) (hposition : position < code.length) :
    l.expansion.resolve position source = .ok number ↔ l.expansion.Reaches position source number := by
  obtain ⟨hsound, hcomplete⟩ := Expansion.resolve_spec h.indexed hposition
  constructor
  · exact hsound number
  · intro hreach
    obtain ⟨number', hfound⟩ := hcomplete ⟨number, hreach⟩
    rw [hfound, h.reaches_unique (hsound number' hfound) hreach]

theorem positionOf_eq (h : v.Lays code l) (hc : l.expansion.copies[number]? = some c) :
    l.positionOf number = l.startOf number := by
  have hlt : number < l.positions.size := by
    rw [h.positions_size]
    exact (Array.getElem?_eq_some_iff.mp hc).1
  unfold Layout.positionOf Layout.startOf
  rw [Array.getElem?_eq_getElem hlt]
  rfl

/-- A copy takes up no byte exactly if it is left out. -/
theorem sizeAt_eq_zero_iff (h : v.Lays code l) {number : Nat} (hc : l.expansion.copies[number]? = some c)
    (position : Nat) : c.sizeAt position = 0 ↔ c.isEmitted = false := by
  have hdecodes := h.tiles.decodes (h.isCopy number c hc).get
  have hsize := hdecodes.size_pos
  have hrelocated := hdecodes.relocatedSize_pos position
  unfold Copy.sizeAt Disposition.sizeAt Copy.isEmitted Disposition.isEmitted
  cases c.disposition with
  | keep => simp only [Bool.true_eq_false, iff_false]; omega
  | jsrGoto callee => simp only [Bool.true_eq_false, iff_false]; omega
  | retGoto target => simp
  | skip => simp

/-- Later copies start no earlier. -/
theorem start_mono (h : v.Lays code l) {j k : Nat} (hjk : j ≤ k) (hk : k ≤ l.expansion.copies.size) :
    l.startOf j ≤ l.startOf k := by
  induction k with
  | zero =>
    obtain rfl : j = 0 := by omega
    exact Nat.le_refl _
  | succ k ih =>
    rcases Nat.lt_or_eq_of_le hjk with hlt | rfl
    · have hsucc := h.start_succ k _ (Array.getElem?_eq_getElem (show k < l.expansion.copies.size by omega))
      have hbefore := ih (by omega) (by omega)
      omega
    · exact Nat.le_refl _

theorem start_size (h : v.Lays code l) : l.startOf l.expansion.copies.size = l.size := by
  unfold Layout.startOf
  rw [← h.positions_size, Array.getElem?_eq_none (Nat.le_refl _)]
  rfl

end Lays

end Verified

end Bytecode
