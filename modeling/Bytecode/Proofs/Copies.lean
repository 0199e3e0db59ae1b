import Bytecode.Inlining.Basic
import Bytecode.Proofs.DecodedBody
import Mathlib.Data.List.Nodup

/-!
# The copies of a method

What `Verified.copiesIn` lists, said once and for all.

* `Verified.IsCall`: the calls of a method, each made by a `jsr` that runs in the call around it;
* `Verified.isCopy_of_mem`: every copy is of an instruction that runs with the subroutines of its call;
* `Verified.nodup_copiesIn`: an instruction is copied at most once in each call;
* `Verified.copiesIn_follows`: code that runs on in its call stays together.
-/

namespace Bytecode

namespace Verified

variable {v : Verified} {levels index : Nat} {call : Call} {i : Instruction}

/-! ## Instructions of a call -/

theorem mem_instructionsIn :
    (i, index) ∈ v.instructionsIn call ↔ v.body.get? index = some i ∧ v.activeAt? index = some call.nesting := by
  unfold instructionsIn
  rw [List.mem_filter, List.mem_zipIdx_iff_getElem?, Body.getElem?_toList, beq_iff_eq]

theorem pairwise_instructionsIn (v : Verified) (call : Call) :
    (v.instructionsIn call).Pairwise fun a b => a.2 < b.2 := by
  unfold instructionsIn
  apply List.Pairwise.filter
  have hindices : (v.body.toList.zipIdx.map Prod.snd).Pairwise (· < ·) := by
    rw [List.zipIdx_map_snd]
    exact List.pairwise_lt_range'
  exact List.pairwise_map.mp hindices

/-- Instructions of a call with adjacent indices are adjacent among the instructions of the call. -/
theorem instructionsIn_follows {i' : Instruction} {front back : List (Instruction × Nat)}
    (hsplit : v.instructionsIn call = front ++ (i, index) :: back)
    (hnext : (i', index + 1) ∈ v.instructionsIn call) : ∃ rest, back = (i', index + 1) :: rest := by
  have hpair := v.pairwise_instructionsIn call
  rw [hsplit] at hpair hnext
  obtain ⟨-, hback, hcross⟩ := List.pairwise_append.mp hpair
  have hmem : (i', index + 1) ∈ back := by
    rcases List.mem_append.mp hnext with hfront | htail
    · have hlt : index + 1 < index := hcross _ hfront _ (List.mem_cons_self ..)
      omega
    · rcases List.mem_cons.mp htail with heq | hmem
      · have hindex : index + 1 = index := congrArg Prod.snd heq
        omega
      · exact hmem
  obtain ⟨hfirst, hpair'⟩ := List.pairwise_cons.mp hback
  cases back with
  | nil => simp at hmem
  | cons first rest =>
    rcases List.mem_cons.mp hmem with heq | hrest
    · exact ⟨rest, by rw [heq]⟩
    · have hlow : index < first.2 := hfirst first (List.mem_cons_self ..)
      have hhigh : first.2 < index + 1 := (List.pairwise_cons.mp hpair').1 _ hrest
      omega

/-! ## Copies of one instruction -/

/-- What becomes of an instruction that makes no call; a `ret` is looked at later. -/
def leafDisposition (v : Verified) (i : Instruction) : Disposition :=
  match i.flow with
  | .plain _ => if v.returnStores.contains i.position then .skip else .keep
  | _ => .keep

/-- The copies that an instruction of a call leads to. -/
def block (v : Verified) (levels : Nat) (call : Call) (entry : Instruction × Nat) : List Copy :=
  match entry.1.flow with
  | .jsr target =>
    let callee := call.child target entry.1.position
    let body := v.copiesIn levels callee
    ⟨entry.2, entry.1, call, v.jsrDisposition entry.1.position target callee body⟩ :: body
  | _ => [⟨entry.2, entry.1, call, v.leafDisposition entry.1⟩]

theorem copiesIn_succ (v : Verified) (levels : Nat) (call : Call) :
    v.copiesIn (levels + 1) call = (v.instructionsIn call).flatMap (v.block levels call) := by
  rw [copiesIn]
  congr 1
  funext ⟨i, index⟩
  unfold block leafDisposition
  cases hflow : i.flow <;> simp only [hflow]

theorem block_of_jsr {target : Nat} (hflow : i.flow = .jsr target) :
    v.block levels call (i, index)
      = ⟨index, i, call, v.jsrDisposition i.position target (call.child target i.position)
          (v.copiesIn levels (call.child target i.position))⟩
        :: v.copiesIn levels (call.child target i.position) := by
  unfold block
  simp only [hflow]

theorem block_of_leaf (hflow : ∀ target, i.flow ≠ .jsr target) :
    v.block levels call (i, index) = [⟨index, i, call, v.leafDisposition i⟩] := by
  unfold block
  split
  · rename_i target hjsr
    exact absurd hjsr (hflow target)
  · rfl

/-- A block starts with the copy of its own instruction. -/
theorem block_eq_cons (v : Verified) (levels : Nat) (call : Call) (i : Instruction) (index : Nat) :
    ∃ d rest, v.block levels call (i, index) = ⟨index, i, call, d⟩ :: rest := by
  by_cases hjsr : ∃ target, i.flow = .jsr target
  · obtain ⟨target, hflow⟩ := hjsr
    exact ⟨_, _, block_of_jsr hflow⟩
  · exact ⟨_, [], block_of_leaf fun target hflow => hjsr ⟨target, hflow⟩⟩

/-- The copies of a call start with one of the call itself. -/
theorem head_call {c : Copy} {rest : List Copy} (h : v.copiesIn levels call = c :: rest) : c.call = call := by
  cases levels with
  | zero => simp [copiesIn] at h
  | succ levels =>
    rw [copiesIn_succ] at h
    cases hentries : v.instructionsIn call with
    | nil => simp [hentries] at h
    | cons entry entries =>
      obtain ⟨d, body, hblock⟩ := v.block_eq_cons levels call entry.1 entry.2
      rw [hentries, List.flatMap_cons, hblock] at h
      exact (congrArg Copy.call (List.cons.inj h).1).symm

/-! ## Calls -/

/-- The calls of a method: its body, and what each `jsr` that runs in a call makes of it. -/
inductive IsCall (v : Verified) : Call → Prop
  | root : IsCall v .root
  | child {call : Call} {index target : Nat} {i : Instruction} (h : IsCall v call)
      (hi : v.body.get? index = some i) (hactive : v.activeAt? index = some call.nesting)
      (hflow : i.flow = .jsr target) : IsCall v (call.child target i.position)

/-- A copy of an instruction that runs with the subroutines of its call active. -/
structure IsCopy (v : Verified) (c : Copy) : Prop where
  call : v.IsCall c.call
  get : v.body.get? c.index = some c.instruction
  active : v.activeAt? c.index = some c.call.nesting

/-- An element of a concatenation lies in one of its parts. -/
theorem flatMap_eq_append_cons {α β : Type} {f : α → List β} {as : List α} {front back : List β} {b : β}
    (h : as.flatMap f = front ++ b :: back) :
    ∃ as₁ a as₂ inner outer, as = as₁ ++ a :: as₂ ∧ f a = inner ++ b :: outer ∧
      back = outer ++ as₂.flatMap f := by
  induction as generalizing front with
  | nil => simp at h
  | cons a as ih =>
    rw [List.flatMap_cons] at h
    have hlater : ∀ front', as.flatMap f = front' ++ b :: back →
        ∃ as₁ a' as₂ inner outer, a :: as = as₁ ++ a' :: as₂ ∧ f a' = inner ++ b :: outer ∧
          back = outer ++ as₂.flatMap f := by
      intro front' h'
      obtain ⟨as₁, a', as₂, inner, outer, rfl, hinner, hback⟩ := ih h'
      exact ⟨a :: as₁, a', as₂, inner, outer, rfl, hinner, hback⟩
    rcases List.append_eq_append_iff.mp h with ⟨front', rfl, hrest⟩ | ⟨outer, hinner, hrest⟩
    · exact hlater front' hrest
    · cases outer with
      | nil => exact hlater [] hrest.symm
      | cons b' outer =>
        obtain ⟨rfl, rfl⟩ := List.cons.inj hrest
        exact ⟨[], a, as, front, outer, rfl, hinner, rfl⟩

/-- What relates a copy to the copies behind it holds in a whole list of copies, if it holds for the copy at the
head of each block and more copies behind do no harm. -/
theorem copiesIn_ind {P : Call → Copy → List Copy → Prop}
    (hhead : ∀ levels call front i index back d body, v.IsCall call →
      v.instructionsIn call = front ++ (i, index) :: back →
      v.block levels call (i, index) = ⟨index, i, call, d⟩ :: body →
      P call ⟨index, i, call, d⟩ (body ++ back.flatMap (v.block levels call)))
    (hbody : ∀ (call : Call) (i : Instruction) target c behind more,
      P (call.child target i.position) c behind → P call c (behind ++ more))
    (hcall : v.IsCall call) {front behind : List Copy} {c : Copy}
    (h : v.copiesIn levels call = front ++ c :: behind) : P call c behind := by
  induction levels generalizing call front behind with
  | zero => simp [copiesIn] at h
  | succ levels ih =>
    rw [copiesIn_succ] at h
    obtain ⟨before, ⟨i, index⟩, back, inner, outer, hsplit, hblock, rfl⟩ := flatMap_eq_append_cons h
    have hmem : (i, index) ∈ v.instructionsIn call := by
      rw [hsplit]
      exact List.mem_append_right _ (List.mem_cons_self ..)
    obtain ⟨hi, hactive⟩ := mem_instructionsIn.mp hmem
    obtain ⟨d, body, hcons⟩ := v.block_eq_cons levels call i index
    cases inner with
    | nil =>
      obtain ⟨rfl, rfl⟩ := List.cons.inj (hcons.symm.trans hblock)
      exact hhead levels call before i index back d body hcall hsplit hcons
    | cons first inner =>
      -- behind its head, a block has the copies of the body that its `jsr` calls
      by_cases hjsr : ∃ target, i.flow = .jsr target
      · obtain ⟨target, hflow⟩ := hjsr
        rw [block_of_jsr hflow] at hblock
        have hcopies := (List.cons.inj hblock).2
        exact hbody call i target c outer _ (ih (.child hcall hi hactive hflow) hcopies)
      · rw [block_of_leaf fun target hflow => hjsr ⟨target, hflow⟩] at hblock
        simp at hblock

theorem isCopy_of_mem (hcall : v.IsCall call) {c : Copy} (hc : c ∈ v.copiesIn levels call) :
    v.IsCopy c ∧ call.path <+: c.call.path := by
  obtain ⟨front, behind, h⟩ := List.append_of_mem hc
  refine copiesIn_ind (P := fun call c _ => v.IsCopy c ∧ call.path <+: c.call.path) ?_ ?_ hcall h
  · intro levels call front i index back d body hcall hsplit hblock
    have hmem : (i, index) ∈ v.instructionsIn call := by
      rw [hsplit]
      exact List.mem_append_right _ (List.mem_cons_self ..)
    obtain ⟨hi, hactive⟩ := mem_instructionsIn.mp hmem
    exact ⟨⟨hcall, hi, hactive⟩, List.prefix_rfl⟩
  · rintro call i target c behind more ⟨hcopy, houter⟩
    exact ⟨hcopy, (List.prefix_append _ _).trans houter⟩

/-! ## What follows a copy -/

/-- Code that runs on in its call stays together: the copy of the next instruction in the call is next. -/
theorem copiesIn_follows (hcall : v.IsCall call) {front behind : List Copy} {c : Copy}
    (h : v.copiesIn levels call = front ++ c :: behind) (hleaf : ∀ target, c.instruction.flow ≠ .jsr target)
    {i' : Instruction} (hi' : v.body.get? (c.index + 1) = some i')
    (hactive' : v.activeAt? (c.index + 1) = some c.call.nesting) :
    ∃ d rest, behind = ⟨c.index + 1, i', c.call, d⟩ :: rest := by
  refine copiesIn_ind (P := fun _ c behind => (∀ target, c.instruction.flow ≠ .jsr target) →
    v.body.get? (c.index + 1) = some i' → v.activeAt? (c.index + 1) = some c.call.nesting →
    ∃ d rest, behind = ⟨c.index + 1, i', c.call, d⟩ :: rest) ?_ ?_ hcall h hleaf hi' hactive'
  · intro levels call front i index back d body hcall hsplit hblock hleaf hi' hactive'
    rw [block_of_leaf hleaf] at hblock
    obtain rfl : [] = body := (List.cons.inj hblock).2
    obtain ⟨rest, rfl⟩ := instructionsIn_follows hsplit (mem_instructionsIn.mpr ⟨hi', hactive'⟩)
    obtain ⟨d', rest', hnext⟩ := v.block_eq_cons levels call i' (index + 1)
    exact ⟨d', rest' ++ rest.flatMap (v.block levels call), by rw [List.flatMap_cons, hnext]; rfl⟩
  · intro call i target c behind more hfollows hleaf hi' hactive'
    obtain ⟨d, rest, rfl⟩ := hfollows hleaf hi' hactive'
    exact ⟨d, rest ++ more, rfl⟩

/-- What becomes of an instruction that makes no call does not depend on the call that it is in. -/
theorem leafDisposition_of_mem (hcall : v.IsCall call) {c : Copy} (hc : c ∈ v.copiesIn levels call)
    (hleaf : ∀ target, c.instruction.flow ≠ .jsr target) :
    c.disposition = v.leafDisposition c.instruction := by
  obtain ⟨front, behind, h⟩ := List.append_of_mem hc
  refine copiesIn_ind (P := fun _ c _ => (∀ target, c.instruction.flow ≠ .jsr target) →
    c.disposition = v.leafDisposition c.instruction) ?_ ?_ hcall h hleaf
  · intro levels call front i index back d body hcall hsplit hblock hleaf
    rw [block_of_leaf hleaf] at hblock
    exact congrArg Copy.disposition (List.cons.inj hblock).1.symm
  · intro call i target c behind more hdisposition
    exact hdisposition

/-- A `jsr` goes to the copy of the body in the call that it makes: by a `goto`, or because the copy of the
entry is next. -/
theorem jsrDisposition_of_split (hcall : v.IsCall call) {front behind : List Copy} {c : Copy} {target : Nat}
    (h : v.copiesIn levels call = front ++ c :: behind) (hflow : c.instruction.flow = .jsr target) :
    c.disposition = .jsrGoto (c.call.child target c.position) ∨
      c.disposition = .skip ∧ ∃ entry rest, behind = entry :: rest ∧ entry.position = target ∧
        entry.call = c.call.child target c.position := by
  refine copiesIn_ind (P := fun _ c behind => c.instruction.flow = .jsr target →
    (c.disposition = .jsrGoto (c.call.child target c.position) ∨
      c.disposition = .skip ∧ ∃ entry rest, behind = entry :: rest ∧ entry.position = target ∧
        entry.call = c.call.child target c.position)) ?_ ?_ hcall h hflow
  · intro levels call front i index back d body hcall hsplit hblock hflow
    rw [block_of_jsr hflow] at hblock
    obtain ⟨hcopy, rfl⟩ := List.cons.inj hblock
    have hd : v.jsrDisposition i.position target (call.child target i.position)
        (v.copiesIn levels (call.child target i.position)) = d := congrArg Copy.disposition hcopy
    unfold jsrDisposition at hd
    split at hd
    · rename_i hskip
      obtain ⟨entry, hentry, hposition⟩ := Option.map_eq_some_iff.mp hskip.2
      obtain ⟨rest, hbody⟩ := List.head?_eq_some_iff.mp hentry
      refine Or.inr ⟨hd.symm, entry, rest ++ back.flatMap (v.block levels call), by rw [hbody]; rfl,
        hposition, ?_⟩
      exact head_call hbody
    · exact Or.inl hd.symm
  · intro call i target' c behind more hjsr hflow
    rcases hjsr hflow with hgoto | ⟨hskip, entry, rest, rfl, hentry⟩
    · exact Or.inl hgoto
    · exact Or.inr ⟨hskip, entry, rest ++ more, rfl, hentry⟩

/-! ## Each instruction once in each call -/

/-- The copies of a body lie deeper than those of the call around it, behind the activation that its `jsr`
makes. -/
theorem path_of_mem_block (hcall : v.IsCall call)
    (hentry : (i, index) ∈ v.instructionsIn call) {c : Copy} (hc : c ∈ v.block levels call (i, index)) :
    c.index = index ∧ c.call = call ∨ ∃ target, call.path ++ [⟨target, i.position, 0⟩] <+: c.call.path := by
  obtain ⟨hi, hactive⟩ := mem_instructionsIn.mp hentry
  by_cases hjsr : ∃ target, i.flow = .jsr target
  · obtain ⟨target, hflow⟩ := hjsr
    rw [block_of_jsr hflow, List.mem_cons] at hc
    rcases hc with rfl | hc
    · exact Or.inl ⟨rfl, rfl⟩
    · exact Or.inr ⟨target, (isCopy_of_mem (.child hcall hi hactive hflow) hc).2⟩
  · rw [block_of_leaf fun target hflow => hjsr ⟨target, hflow⟩, List.mem_singleton] at hc
    rw [hc]
    exact Or.inl ⟨rfl, rfl⟩

theorem not_concat_prefix {path : List Activation} {a : Activation} : ¬ path ++ [a] <+: path := by
  intro houter
  have hlength := houter.length_le
  rw [List.length_append, List.length_singleton] at hlength
  omega

theorem nodup_copiesIn {code : List UInt8} (hb : v.body.Tiles code) (hcall : v.IsCall call) :
    ((v.copiesIn levels call).map fun c => (c.index, c.call)).Nodup := by
  induction levels generalizing call with
  | zero => simp [copiesIn]
  | succ levels ih =>
    rw [copiesIn_succ, List.map_flatMap, List.nodup_flatMap]
    constructor
    · rintro ⟨i, index⟩ hentry
      obtain ⟨hi, hactive⟩ := mem_instructionsIn.mp hentry
      by_cases hjsr : ∃ target, i.flow = .jsr target
      · obtain ⟨target, hflow⟩ := hjsr
        have hchild := IsCall.child hcall hi hactive hflow
        rw [block_of_jsr hflow, List.map_cons, List.nodup_cons]
        refine ⟨?_, ih hchild⟩
        intro hmem
        obtain ⟨c, hc, hkey⟩ := List.mem_map.mp hmem
        have hdeeper := (isCopy_of_mem hchild hc).2
        rw [(Prod.mk.inj hkey).2] at hdeeper
        exact not_concat_prefix hdeeper
      · rw [block_of_leaf fun target hflow => hjsr ⟨target, hflow⟩]
        exact List.nodup_singleton _
    · refine (v.pairwise_instructionsIn call).imp_of_mem ?_
      rintro ⟨i, index⟩ ⟨i', index'⟩ hentry hentry' hlt
      have hindex : index < index' := hlt
      have hposition : i.position < i'.position :=
        hb.position_lt hindex (mem_instructionsIn.mp hentry).1 (mem_instructionsIn.mp hentry').1
      intro key hkey hkey'
      obtain ⟨c, hc, rfl⟩ := List.mem_map.mp hkey
      obtain ⟨c', hc', heq⟩ := List.mem_map.mp hkey'
      obtain ⟨hsame, hcallEq⟩ := Prod.mk.inj heq
      have hcase := path_of_mem_block hcall hentry hc
      have hcase' := path_of_mem_block hcall hentry' hc'
      rw [hsame, hcallEq] at hcase'
      rcases hcase with ⟨rfl, hown⟩ | ⟨target, houter⟩
      · rcases hcase' with ⟨rfl, -⟩ | ⟨target', houter'⟩
        · omega
        · rw [hown] at houter'
          exact not_concat_prefix houter'
      · rcases hcase' with ⟨rfl, hown⟩ | ⟨target', houter'⟩
        · rw [hown] at houter
          exact not_concat_prefix houter
        · -- both paths go on from the call by one activation, made at different positions
          have hpaths := (List.prefix_of_prefix_length_le houter houter' (by simp)).eq_of_length (by simp)
          have hactivation := List.append_cancel_left hpaths
          have hcaller : i.position = i'.position := by simpa using congrArg (List.map Activation.caller) hactivation
          omega

/-! ## Calls and the calls around them -/

namespace IsCall

/-- The innermost call is made by a `jsr` of the subroutine, inside of the call around. -/
theorem caller_of_concat {path : List Activation} {a : Activation} (h : v.IsCall ⟨path ++ [a]⟩) :
    v.IsCall ⟨path⟩ ∧ ∃ index i, v.body.get? index = some i ∧ i.position = a.caller ∧ i.flow = .jsr a.subroutine ∧
      v.activeAt? index = some (⟨path⟩ : Call).nesting := by
  generalize hcall : (⟨path ++ [a]⟩ : Call) = call at h
  cases h with
  | root =>
    have hpath := congrArg Call.path hcall
    simp [Call.root] at hpath
  | @child parent index target i hparent hi hactive hflow =>
    have hpath : path ++ [a] = parent.path ++ [⟨target, i.position, 0⟩] := congrArg Call.path hcall
    obtain ⟨rfl, hlast⟩ := List.append_inj' hpath rfl
    obtain rfl := (List.cons.inj hlast).1
    exact ⟨hparent, index, i, hi, rfl, hflow, hactive⟩

/-- The calls around a call are calls. -/
theorem of_prefix (h : v.IsCall call) {path : List Activation} (houter : path <+: call.path) :
    v.IsCall ⟨path⟩ := by
  induction h with
  | root =>
    rw [List.prefix_nil.mp houter]
    exact .root
  | @child call index target i h hi hactive hflow ih =>
    rcases List.prefix_concat_iff.mp houter with rfl | hshort
    · exact .child h hi hactive hflow
    · exact ih hshort

end IsCall

/-! ## No copy is missing -/

theorem length_le_depth {nesting : Nesting} (hactive : v.activeAt? index = some nesting) :
    nesting.length ≤ v.depth := by
  have hfold : ∀ (active : List (Option Nesting)) (start : Nat),
      start ≤ active.foldl (fun depth nesting => max depth (nesting.elim 0 List.length)) start ∧
        ∀ nesting, some nesting ∈ active →
          nesting.length ≤ active.foldl (fun depth nesting => max depth (nesting.elim 0 List.length)) start := by
    intro active
    induction active with
    | nil => simp
    | cons first rest ih =>
      intro start
      obtain ⟨hstart, hrest⟩ := ih (max start (first.elim 0 List.length))
      rw [List.foldl_cons]
      refine ⟨by omega, ?_⟩
      intro nesting hmem
      rcases List.mem_cons.mp hmem with rfl | hmem
      · exact Nat.le_trans (Nat.le_max_right start nesting.length) hstart
      · exact hrest nesting hmem
  unfold activeAt? at hactive
  unfold depth
  rw [← Array.foldl_toList]
  refine (hfold v.active.toList 0).2 nesting ?_
  cases hslot : v.active[index]? with
  | none => simp [hslot] at hactive
  | some slot =>
    obtain rfl : slot = some nesting := by simpa [hslot] using hactive
    exact (Array.mem_of_getElem? hslot).val

/-- Enough levels are followed for the copies of every call. -/
theorem copiesIn_subset (h : v.IsCall call) (hdepth : call.depth ≤ v.depth + 1) :
    v.copiesIn (v.depth + 1 - call.depth) call ⊆ v.copies := by
  induction h with
  | root => exact List.Subset.refl _
  | @child call index target i h hi hactive hflow ih =>
    have hparent : call.depth ≤ v.depth := by
      have hlength := length_le_depth hactive
      rwa [Call.nesting, List.length_map] at hlength
    have hdepthChild : (call.child target i.position).depth = call.depth + 1 := by
      simp [Call.depth, Call.child]
    refine List.Subset.trans ?_ (ih (by omega))
    have hlevels : v.depth + 1 - call.depth = (v.depth - call.depth) + 1 := by omega
    rw [hlevels, copiesIn_succ, hdepthChild]
    intro c hc
    refine List.mem_flatMap.mpr ⟨(i, index), mem_instructionsIn.mpr ⟨hi, hactive⟩, ?_⟩
    rw [block_of_jsr hflow]
    refine List.mem_cons_of_mem _ ?_
    rwa [show v.depth + 1 - (call.depth + 1) = v.depth - call.depth by omega] at hc

/-- Every instruction has a copy in every call with the subroutines that are active there. -/
theorem exists_copy (hcall : v.IsCall call) (hi : v.body.get? index = some i)
    (hactive : v.activeAt? index = some call.nesting) :
    ∃ c ∈ v.copies, c.index = index ∧ c.instruction = i ∧ c.call = call := by
  have hdepth : call.depth ≤ v.depth := by
    have hlength := length_le_depth hactive
    rwa [Call.nesting, List.length_map] at hlength
  obtain ⟨d, rest, hblock⟩ := v.block_eq_cons (v.depth - call.depth) call i index
  refine ⟨⟨index, i, call, d⟩, copiesIn_subset hcall (by omega) ?_, rfl, rfl, rfl⟩
  rw [show v.depth + 1 - call.depth = (v.depth - call.depth) + 1 by omega, copiesIn_succ]
  refine List.mem_flatMap.mpr ⟨(i, index), mem_instructionsIn.mpr ⟨hi, hactive⟩, ?_⟩
  rw [hblock]
  exact List.mem_cons_self ..

end Verified

end Bytecode
