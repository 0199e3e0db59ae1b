import Bytecode.Proofs.Course
import Bytecode.Proofs.Emission
import Bytecode.Proofs.Rounds

/-!
# Control transfers in the new code

Branches, switches, calls of subroutines and returns from them lead to the right copies in the new code.

* `Expansion.TheCopy`: the one copy of a position in a call or in one around it;
* `Call.ancestor_of_leave`: of the calls around a `ret`, exactly one is of the subroutine that the return address
  belongs to, and it is the one that is left;
* `Verified.Leaves`: the call that a `ret` leaves, and the `jsr` that made it (`Settled.leaves`);
* `transfers_kept`: what every copy of a branch, a switch, a `jsr` and a `ret` leads to.
-/

namespace Bytecode

/-! ## Calls that are left -/

namespace Call

variable {c left other : Call}

theorem ancestor?_eq_some {levels : Nat} :
    c.ancestor? levels = some left ↔ levels ≤ c.depth ∧ left = ⟨c.path.take (c.depth - levels)⟩ := by
  unfold ancestor?
  split
  · rename_i hle
    rw [Option.some_inj]
    constructor
    · intro heq
      exact ⟨hle, heq.symm⟩
    · intro h
      exact h.2.symm
  · rename_i hle
    constructor
    · intro h
      simp at h
    · intro h
      exact absurd h.1 hle

/-- The innermost call of the calls up to a depth. -/
theorem innermost?_take {depth : Nat} (hdepth : depth < c.depth) :
    (⟨c.path.take (depth + 1)⟩ : Call).innermost? = c.path[depth]? := by
  unfold innermost?
  have hget : c.path[depth]? = some c.path[depth] := List.getElem?_eq_getElem hdepth
  rw [List.getLast?_take, if_neg (Nat.succ_ne_zero depth), Nat.add_sub_cancel, hget, Option.some_or]

/-- A call around another has a subroutine of its nesting, at its depth. -/
theorem subroutine_of_ancestor {levels entry : Nat} (hleft : c.ancestor? levels = some left)
    (hentry : left.subroutine? = some entry) : levels < c.depth ∧ c.nesting[c.depth - levels - 1]? = some entry := by
  obtain ⟨hle, rfl⟩ := ancestor?_eq_some.mp hleft
  unfold subroutine? at hentry
  rcases Nat.lt_or_eq_of_le hle with hlt | rfl
  · refine ⟨hlt, ?_⟩
    rw [show c.depth - levels = c.depth - levels - 1 + 1 by omega, innermost?_take (by omega)] at hentry
    unfold nesting
    rw [List.getElem?_map]
    exact hentry
  · simp [innermost?] at hentry

/-- The call that is left through a subroutine is of that subroutine, and no other around is. -/
theorem ancestor_of_leave {entry popped : Nat} {rest : Nesting} (hnodup : c.nesting.Nodup)
    (hleave : c.nesting.leaveThrough entry = .ok (popped, rest)) :
    ∃ left parent a, c.ancestor? (popped - 1) = some left ∧ left.innermost? = some a ∧ a ∈ c.path ∧
      a.subroutine = entry ∧ left.parent? = some parent ∧ parent.path ++ [a] = left.path ∧
      ∀ levels other, c.ancestor? levels = some other → other.subroutine? = some entry → other = left := by
  obtain ⟨hpos, hle, hentry⟩ := Nesting.leaveThrough_eq_ok hleave
  have hdepth : c.nesting.length = c.depth := List.length_map _
  rw [hdepth] at hle hentry
  obtain ⟨depth, hdepth'⟩ : ∃ depth, c.depth - popped = depth := ⟨_, rfl⟩
  rw [hdepth'] at hentry
  have hlt : depth < c.path.length := by
    show depth < c.depth
    omega
  have hget : c.path[depth]? = some c.path[depth] := List.getElem?_eq_getElem hlt
  have hlevels : c.depth - (popped - 1) = depth + 1 := by omega
  have hlength : (c.path.take (depth + 1)).length = depth + 1 := List.length_take_of_le hlt
  refine ⟨⟨c.path.take (depth + 1)⟩, ⟨c.path.take depth⟩, c.path[depth], ?_, ?_, List.getElem_mem hlt, ?_, ?_, ?_, ?_⟩
  · rw [ancestor?_eq_some, hlevels]
    exact ⟨by omega, rfl⟩
  · rw [innermost?_take hlt, hget]
  · unfold nesting at hentry
    rw [List.getElem?_map, hget, Option.map_some, Option.some_inj] at hentry
    exact hentry
  · unfold parent?
    rw [ancestor?_eq_some]
    refine ⟨?_, ?_⟩
    · show 1 ≤ (c.path.take (depth + 1)).length
      omega
    · show (⟨c.path.take depth⟩ : Call) = ⟨(c.path.take (depth + 1)).take ((c.path.take (depth + 1)).length - 1)⟩
      rw [hlength, Nat.add_sub_cancel, List.take_take, Nat.min_eq_left (by omega)]
  · show c.path.take depth ++ [c.path[depth]] = c.path.take (depth + 1)
    rw [List.take_add_one, hget]
    rfl
  · intro levels other hother hsub
    obtain ⟨hlevels', hentry'⟩ := subroutine_of_ancestor hother hsub
    have hlt' : c.depth - levels - 1 < c.nesting.length := by omega
    have hsame : c.depth - levels - 1 = depth := by
      rw [List.getElem?_eq_getElem hlt', Option.some_inj] at hentry'
      rw [List.getElem?_eq_getElem (by omega), Option.some_inj] at hentry
      exact (List.Nodup.getElem_inj_iff hnodup).mp (hentry'.trans hentry.symm)
    obtain ⟨-, rfl⟩ := ancestor?_eq_some.mp hother
    rw [show c.depth - levels = depth + 1 by omega]

end Call

/-! ## Where copies lead to -/

/-- The one copy of a position in a call or in one around it. -/
def Expansion.TheCopy (e : Expansion) (position : Nat) (source : Call) (number : Nat) : Prop :=
  e.Reaches position source number ∧ ∀ other, e.Reaches position source other → other = number

namespace Layout

/-- The new code has an instruction at the position of the copy with a number.  A displacement may lead to the end
of the code, where copies that are left out can stand. -/
def Holds (l : Layout) (bytes : List UInt8) (number : Nat) (i : Instruction) : Prop :=
  Instruction.decodeFrom (bytes.length + 1) (l.positionOf number) (bytes.drop (l.positionOf number)) = .ok i

/-- A branch or switch leads, for every target and with the same keys, to the one copy of it. -/
def KeepsTargets (l : Layout) (bytes : List UInt8) (number : Nat) (c : Copy) : Prop :=
  ∃ i, l.Holds bytes number i ∧ i.opcode = c.instruction.opcode ∧
    c.instruction.flow.Moved
      (fun t u => ∃ target, l.expansion.TheCopy t c.call target ∧ u = l.positionOf target) i.flow

/-- A `goto` in place of a copy leads to the copy with another number. -/
def GoesTo (l : Layout) (bytes : List UInt8) (number target : Nat) : Prop :=
  ∃ i, l.Holds bytes number i ∧ i.flow = .branch .goto (l.positionOf target)

/-- A `jsr` leads to the one copy of the entry of the subroutine in the call that it makes: with a `goto`, or because
that copy comes next. -/
def KeepsCall (l : Layout) (bytes : List UInt8) (number : Nat) (c : Copy) (entry : Nat) : Prop :=
  ∃ callee target, callee = c.call.child entry c.position ∧ l.expansion.TheCopy entry callee target ∧
    (c.disposition = .skip ∧ target = number + 1 ∨ c.disposition = .jsrGoto callee ∧ l.GoesTo bytes number target)

/-- A `ret` goes on behind the `jsr` that made the call `left`, in the call around: with a `goto`, or because that
copy comes next.  Of the calls around the `ret`, `left` is the one whose subroutine is named by the return address
in the local, right before the `ret`. -/
def KeepsReturn (l : Layout) (bytes : List UInt8) (v : Verified) (method : Method) (number : Nat) (c : Copy)
    (index : UInt16) : Prop :=
  ∃ frame entry left parent caller jsr target,
    v.frameBefore? method c.index = some frame ∧ frame.locals[index.toNat]? = some (.returnAddress entry) ∧
    (∃ levels, c.call.ancestor? levels = some left) ∧ left.subroutine? = some entry ∧
    (∀ levels other, c.call.ancestor? levels = some other → other.subroutine? = some entry → other = left) ∧
    left.caller? = some caller ∧ left.parent? = some parent ∧
    v.body.startingAt? caller = some jsr ∧ jsr.flow = .jsr entry ∧
    l.expansion.TheCopy jsr.next parent target ∧
    (c.disposition = .skip ∧ target = number + 1 ∨ c.disposition = .retGoto target ∧ l.GoesTo bytes number target)

/-- What a copy leads to other than by falling into the next. -/
def KeepsTransfer (l : Layout) (bytes : List UInt8) (v : Verified) (method : Method) (number : Nat) (c : Copy) : Prop :=
  match c.instruction.flow with
  | .plain _ => c.disposition = .keep ∨ c.disposition = .skip
  | .branch _ _ | .select _ _ => c.disposition = .keep ∧ l.KeepsTargets bytes number c
  | .jsr entry => l.KeepsCall bytes number c entry
  | .ret slot => l.KeepsReturn bytes v method number c slot

end Layout

namespace Verified.Lays

variable {v : Verified} {code bytes : List UInt8} {l : Layout}

theorem theCopy_of_resolve (h : v.Lays code l) {position number : Nat} {source : Call} (hposition : position < code.length)
    (hresolve : l.expansion.resolve position source = .ok number) : l.expansion.TheCopy position source number := by
  have hreaches := (h.resolve_eq_ok_iff hposition).mp hresolve
  exact ⟨hreaches, fun other hother => h.reaches_unique hother hreaches⟩

/-- Every copy that is not left out becomes an instruction that can be decoded in its place. -/
theorem holds_of_emits (h : v.Lays code l) (hemits : l.Emits bytes) {number : Nat} {c : Copy}
    (hc : l.expansion.copies[number]? = some c) (hemitted : c.isEmitted = true) :
    ∃ i, l.Becomes (l.positionOf number) c i ∧ l.Holds bytes number i := by
  obtain ⟨i, hbecomes, hdecodes⟩ := h.decodes_of_emits hemits hc hemitted
  have htargets : ∀ t ∈ i.targets, t < bytes.length + 1 := by
    intro t ht
    rw [hemits.length_eq]
    exact Nat.lt_succ_of_le (h.targets_le hbecomes t ht)
  rw [h.positionOf_eq hc]
  refine ⟨i, hbecomes, ?_⟩
  unfold Layout.Holds
  rw [h.positionOf_eq hc, Instruction.decodeFrom_eq_ok]
  apply hdecodes _ _ htargets
  rw [hemits.length_eq]
  omega

/-- Branches and switches are kept, and lead to the copies of their targets. -/
theorem keepsTargets (h : v.Lays code l) (hemits : l.Emits bytes) {number : Nat} {c : Copy}
    (hc : l.expansion.copies[number]? = some c)
    (hflow : (∃ kind target, c.instruction.flow = .branch kind target) ∨
      ∃ default cases, c.instruction.flow = .select default cases) :
    c.disposition = .keep ∧ l.KeepsTargets bytes number c := by
  have hcopy := h.isCopy number c hc
  have hkeep : c.disposition = .keep := by
    have hleaf := h.leaf number c hc
    unfold Verified.leafDisposition at hleaf
    rcases hflow with ⟨kind, target, hflow⟩ | ⟨default, cases, hflow⟩
    · simpa [hflow] using hleaf
    · simpa [hflow] using hleaf
  refine ⟨hkeep, ?_⟩
  obtain ⟨i, hbecomes, hholds⟩ := h.holds_of_emits hemits hc (by simp [Copy.isEmitted, Disposition.isEmitted, hkeep])
  cases hbecomes with
  | keep _ hmoved =>
    refine ⟨_, hholds, rfl, hmoved.mono ?_⟩
    intro t ht u hu
    obtain ⟨index, i', hi', rfl⟩ := h.tiles.target_start hcopy.get ht
    obtain ⟨target, hresolve, rfl⟩ := map_eq_ok.mp hu
    exact ⟨target, h.theCopy_of_resolve (h.tiles.position_lt_length hi') hresolve, rfl⟩
  | jsr hcall => simp [hkeep] at hcall
  | ret hret => simp [hkeep] at hret

/-- A `jsr` leads into the call that it makes. -/
theorem keepsCall (h : v.Lays code l) (hemits : l.Emits bytes) {number entry : Nat} {c : Copy}
    (hc : l.expansion.copies[number]? = some c) (hflow : c.instruction.flow = .jsr entry) :
    l.KeepsCall bytes number c entry := by
  have hentry : entry < code.length := by
    obtain ⟨index, i, hi, rfl⟩ := h.tiles.target_start (h.isCopy number c hc).get
      (show entry ∈ c.instruction.targets by simp [Instruction.targets, hflow])
    exact h.tiles.position_lt_length hi
  rcases h.jsr number c entry hc hflow with hgoto | ⟨hskip, c', hc', hposition, hcall⟩
  · obtain ⟨i, hbecomes, hholds⟩ := h.holds_of_emits hemits hc
      (by simp [Copy.isEmitted, Disposition.isEmitted, hgoto])
    cases hbecomes with
    | keep hkeep => simp [hgoto] at hkeep
    | @jsr callee entry' u opcode hcall hflow' htarget _ =>
      obtain rfl := Disposition.jsrGoto.inj (hcall.symm.trans hgoto)
      obtain rfl := Flow.jsr.inj (hflow.symm.trans hflow')
      obtain ⟨target, hresolve, rfl⟩ := map_eq_ok.mp htarget
      exact ⟨_, target, rfl, h.theCopy_of_resolve hentry hresolve, Or.inr ⟨hgoto, _, hholds, rfl⟩⟩
    | ret hret => simp [hgoto] at hret
  · have hreaches : l.expansion.Reaches entry (c.call.child entry c.position) (number + 1) := by
      refine ⟨c', hc', hposition, ?_⟩
      exact hcall ▸ List.prefix_refl _
    exact ⟨_, number + 1, rfl, ⟨hreaches, fun other hother => h.reaches_unique hother hreaches⟩, Or.inl ⟨hskip, rfl⟩⟩

end Verified.Lays

/-- The `ret` with an index leaves, out of a call, the call `left` of the subroutine whose return address is in its local.
The `jsr` made `left` in the call `parent`. -/
structure Verified.Leaves (v : Verified) (method : Method) (call : Call) (index : Nat) (slot : UInt16)
    (entry : Nat) (left parent : Call) (jsr : Instruction) : Prop where
  address : ∃ frame, v.frameBefore? method index = some frame ∧ frame.locals[slot.toNat]? = some (.returnAddress entry)
  popped : ∃ i popped, v.body.get? index = some i ∧ i.flow = .ret slot ∧ v.framesPopped.get? i.position = some popped ∧
    call.ancestor? (popped - 1) = some left
  subroutine : left.subroutine? = some entry
  only : ∀ levels other, call.ancestor? levels = some other → other.subroutine? = some entry → other = left
  caller : left.caller? = some jsr.position
  around : left.parent? = some parent
  isCall : v.IsCall parent
  made : ∃ jsrIndex, v.body.get? jsrIndex = some jsr ∧ jsr.flow = .jsr entry ∧
    v.activeAt? jsrIndex = some parent.nesting

/-- The copy that a `ret` goes on with is looked for behind the `jsr`, in the call around the one that is left. -/
theorem Verified.Leaves.returnTarget_eq {v : Verified} {method : Method} {code : List UInt8} {c : Copy} {slot : UInt16}
    {entry : Nat} {left parent : Call} {jsr : Instruction} (h : v.Leaves method c.call c.index slot entry left parent jsr)
    (hb : v.body.Tiles code) (hcopy : v.IsCopy c) (e : Expansion) : e.returnTarget v c = e.resolve jsr.next parent := by
  obtain ⟨i, popped, hi, -, hpopped, hleft⟩ := h.popped
  obtain ⟨jsrIndex, hjsr, -⟩ := h.made
  have hposition : c.position = i.position := by
    obtain rfl := Option.some.inj (hi.symm.trans hcopy.get)
    rfl
  have hstart : v.body.startingAt? jsr.position = some jsr :=
    hb.startingAt?_eq_some_iff.mpr ⟨rfl, jsrIndex, hjsr⟩
  unfold Expansion.returnTarget
  simp only [hposition, hpopped, hleft, Option.bind_some, h.caller, h.around, hstart]

namespace Settled

variable {method : Method} {v : Verified} {setup : Setup} {s : Session}

/-- Every `ret` that runs in a call leaves one around it. -/
theorem leaves (h : Settled method v setup s) {c : Copy} {slot : UInt16} (hcopy : v.IsCopy c)
    (hflow : c.instruction.flow = .ret slot) :
    ∃ entry left parent jsr, v.Leaves method c.call c.index slot entry left parent jsr := by
  have hactive := hcopy.active
  rw [h.activeAt?_eq hcopy.get] at hactive
  obtain ⟨frame, hframe, hnesting⟩ := Option.map_eq_some_iff.mp hactive
  -- the return address that the `ret` was looked at with
  have hhandled := h.handled hcopy.get hframe
  have hret := hhandled.flow
  unfold Session.FlowHandled at hret
  simp only [hflow] at hret
  obtain ⟨-, entry, hleft, -⟩ := hret
  obtain ⟨popped, rest, hleave, hpopped⟩ := hleft.popped
  rw [hnesting] at hleave
  have hnodup : c.call.nesting.Nodup := by
    rw [← hnesting]
    exact hhandled.fits.nodup
  obtain ⟨left, parent, a, hancestor, hinnermost, -, hentry, hparent, hpath, honly⟩ :=
    Call.ancestor_of_leave hnodup hleave
  -- the `jsr` that made the call
  have houter : left.path <+: c.call.path := by
    obtain ⟨-, rfl⟩ := Call.ancestor?_eq_some.mp hancestor
    exact List.take_prefix _ _
  have hisCall := hcopy.call.of_prefix houter
  rw [← hpath] at hisCall
  obtain ⟨hparentCall, jsrIndex, jsr, hjsr, hposition, hcall, hactive'⟩ := Verified.IsCall.caller_of_concat hisCall
  rw [hentry] at hcall
  have hsame : v.framesPopped = s.framesPopped := by
    rw [h.verified]
    rfl
  refine ⟨entry, left, parent, jsr, ⟨frame, hframe, hleft.address⟩,
    ⟨_, popped, hcopy.get, hflow, hsame ▸ hpopped, hancestor⟩, ?_, honly, ?_, hparent, hparentCall,
    jsrIndex, hjsr, hcall, hactive'⟩
  · unfold Call.subroutine?
    rw [hinnermost, Option.map_some, hentry]
  · unfold Call.caller?
    rw [hinnermost, Option.map_some, hposition]

/-- A `ret` comes to the place behind the `jsr` with the subroutines active that are so at the `jsr`, or fewer. -/
theorem delivered_of_leaves (h : Settled method v setup s) {call left parent : Call} {index entry : Nat} {slot : UInt16}
    {jsr : Instruction} (hleaves : v.Leaves method call index slot entry left parent jsr) :
    ∃ behind, s.Delivered jsr.next behind ∧ parent.nesting.Within behind.nesting := by
  obtain ⟨frame, hframe, haddress⟩ := hleaves.address
  obtain ⟨i, -, hi, hflow, -⟩ := hleaves.popped
  obtain ⟨jsrIndex, hjsr, hcall, hactive⟩ := hleaves.made
  rw [h.activeAt?_eq hjsr] at hactive
  obtain ⟨before, hbefore, hnesting⟩ := Option.map_eq_some_iff.mp hactive
  obtain ⟨_, _, site, -, -, -, -, hbelow, -, hdelivered⟩ := h.returned hi hframe hflow haddress hjsr hbefore hcall
  refine ⟨_, hdelivered, ?_⟩
  rw [← hnesting]
  exact hbelow.nesting

/-- Every copy of a `ret` goes on behind the `jsr` that made the call it leaves. -/
theorem keepsReturn (h : Settled method v setup s) {l : Layout} {bytes : List UInt8} (hlays : v.Lays method.code.bytes l)
    (hemits : l.Emits bytes) {number : Nat} {c : Copy} {slot : UInt16} (hc : l.expansion.copies[number]? = some c)
    (hflow : c.instruction.flow = .ret slot) : l.KeepsReturn bytes v method number c slot := by
  have hcopy := hlays.isCopy number c hc
  obtain ⟨entry, left, parent, jsr, hleaves⟩ := h.leaves hcopy hflow
  obtain ⟨behind, hdelivered, -⟩ := h.delivered_of_leaves hleaves
  obtain ⟨frame, hframe, haddress⟩ := hleaves.address
  obtain ⟨_, popped, -, -, -, hancestor⟩ := hleaves.popped
  obtain ⟨jsrIndex, hjsr, hcall, -⟩ := hleaves.made
  -- the copy that was found for it
  obtain ⟨target, htarget, hdisposition⟩ := hlays.ret number c slot hc hflow
  rw [hleaves.returnTarget_eq h.tiles hcopy] at htarget
  have hnext : jsr.next < method.code.bytes.length := by
    obtain ⟨st, hst, -⟩ := hdelivered
    have hlt := PositionMap.lt_bound_of_get? hst
    rwa [h.wellFormed.sized.states, h.prepared.tiles.codeLength_eq] at hlt
  refine ⟨frame, entry, left, parent, jsr.position, jsr, target, hframe, haddress, ⟨_, hancestor⟩, hleaves.subroutine,
    hleaves.only, hleaves.caller, hleaves.around, h.tiles.startingAt?_eq_some_iff.mpr ⟨rfl, jsrIndex, hjsr⟩, hcall,
    hlays.theCopy_of_resolve hnext htarget, ?_⟩
  by_cases hfollows : target = number + 1
  · rw [if_pos hfollows] at hdisposition
    exact Or.inl ⟨hdisposition, hfollows⟩
  · rw [if_neg hfollows] at hdisposition
    refine Or.inr ⟨hdisposition, ?_⟩
    obtain ⟨i', hbecomes, hholds⟩ := hlays.holds_of_emits hemits hc
      (by simp [Copy.isEmitted, Disposition.isEmitted, hdisposition])
    cases hbecomes with
    | keep hkeep => simp [hdisposition] at hkeep
    | jsr hcall' => simp [hdisposition] at hcall'
    | ret hret =>
      obtain rfl := Disposition.retGoto.inj (hdisposition.symm.trans hret)
      exact ⟨_, hholds, rfl⟩

end Settled

/-- **Control transfers are kept.**  In the new code of a method, every copy of a branch or switch leads to the
copies of its targets that code in its call can go to, every `jsr` leads to the entry of the subroutine in the call
that it makes, and every copy of a `ret` goes on behind the `jsr` that made the call which the return address belongs
to. -/
theorem transfers_kept {method : Method} {v : Verified} {pool : ConstantPool} {out : Code}
    (hfits : method.code.bytes.length < 2 ^ 64) (hverify : method.verify = .ok v)
    (hinline : v.inline method.code pool = .ok out) :
    ∃ l, v.layout = .ok l ∧ ∀ (number : Nat) (c : Copy), l.expansion.copies[number]? = some c →
      l.KeepsTransfer out.bytes v method number c := by
  obtain ⟨setup, s, hsettled⟩ := Method.settled hfits hverify
  obtain ⟨l, hlayout, hemit, -⟩ := Verified.inline_eq_ok hinline
  have hlays := Verified.lays_of_layout hsettled.tiles hlayout
  have hemits := hlays.emits_of_emit hemit
  refine ⟨l, hlayout, ?_⟩
  intro number c hc
  unfold Layout.KeepsTransfer
  cases hflow : c.instruction.flow with
  | plain op =>
    have hleaf := hlays.leaf number c hc (by simp [hflow]) (by simp [hflow])
    unfold Verified.leafDisposition at hleaf
    simp only [hflow] at hleaf
    split at hleaf
    · exact Or.inr hleaf
    · exact Or.inl hleaf
  | branch kind target => exact hlays.keepsTargets hemits hc (Or.inl ⟨kind, target, hflow⟩)
  | select default cases => exact hlays.keepsTargets hemits hc (Or.inr ⟨default, cases, hflow⟩)
  | jsr entry => exact hlays.keepsCall hemits hc hflow
  | ret slot => exact hsettled.keepsReturn hlays hemits hc hflow

/-- A body with a subroutine that is called twice, from both sides of a branch:

    0 iconst_0;  1 ifeq 8;  4 jsr 12;  7 return;  8 jsr 12;  11 return;  12 astore_0;  13 nop;  14 ret 0
-/
def calledTwice : Method := .bare ⟨[], none⟩ 1 1
  [0x03, 0x99, 0x00, 0x07, 0xa8, 0x00, 0x08, 0xb1, 0xa8, 0x00, 0x04, 0xb1, 0x4b, 0x00, 0xa9, 0x00]

/-- The branch at 1 leads to the copy of the second call, and the `ret` in its copy to what comes behind it. -/
theorem transfers_kept_calledTwice :
    ∃ v out l c c', calledTwice.verify = .ok v ∧ v.inline calledTwice.code .empty = .ok out ∧ v.layout = .ok l ∧
      l.expansion.copies[1]? = some c ∧ c.instruction.flow = .branch .ifInt 8 ∧ l.KeepsTargets out.bytes 1 c ∧
      l.expansion.copies[10]? = some c' ∧ c'.instruction.flow = .ret 0 ∧
      l.KeepsReturn out.bytes v calledTwice 10 c' 0 := by
  obtain ⟨v, l, hverify, hlayout, htest⟩ := @Method.exists_layout_of_within calledTwice 10
    (fun v l => (v.inline calledTwice.code .empty).toOption.isSome &&
      l.expansion.copies[1]?.any (fun c => c.instruction.flow = .branch .ifInt 8) &&
      l.expansion.copies[10]?.any (fun c => c.instruction.flow = .ret 0)) (by decide +kernel)
  simp only [Bool.and_eq_true] at htest
  obtain ⟨⟨hout, hbranch⟩, hret⟩ := htest
  obtain ⟨c, hc, hbranch⟩ := (Option.any_eq_true _ _).mp hbranch
  obtain ⟨c', hc', hret⟩ := (Option.any_eq_true _ _).mp hret
  cases hinline : v.inline calledTwice.code .empty with
  | error e => simp [hinline, Except.toOption] at hout
  | ok out =>
    obtain ⟨l', hlayout', hkept⟩ := transfers_kept (by decide) hverify hinline
    obtain rfl := Except.ok.inj (hlayout.symm.trans hlayout')
    have hbranch := of_decide_eq_true hbranch
    have hret := of_decide_eq_true hret
    have hkeptBranch := hkept 1 c hc
    have hkeptRet := hkept 10 c' hc'
    unfold Layout.KeepsTransfer at hkeptBranch hkeptRet
    simp only [hbranch] at hkeptBranch
    simp only [hret] at hkeptRet
    exact ⟨v, out, l, c, c', hverify, hinline, hlayout, hc, hbranch, hkeptBranch.2, hc', hret, hkeptRet⟩

end Bytecode
