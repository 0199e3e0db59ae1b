import Bytecode.Proofs.Fixpoint
import Bytecode.Proofs.Placement
import Bytecode.Proofs.Rounds

/-!
# Fall-through in the new code

Where control falls from one instruction into the next, nothing is written into the new code: the copy of the
next instruction has to come right behind.  Copies are laid out call by call, so this holds as long as the same
subroutines are active at both instructions.

* `Layout.KeepsFallThrough`: behind a copy comes the copy that its control falls into;
* `Layout.Adjoins`: nothing is emitted between two copies, which is when they have one position
  (`Verified.Lays.startOf_eq_iff`);
* `keepsFallThrough_iff`: control can only fall into code in which the same or fewer subroutines are active, and
  fall-through is kept exactly if they are the same or nothing is emitted in between;
* `fallThrough_out_of_subroutine`: code that falls out of a subroutine may go on with the wrong instruction.
-/

namespace Bytecode

namespace Layout

/-- Behind the copy with a number, new control goes on with the copy of the next instruction that code in its
call can go to. -/
def KeepsFallThrough (l : Layout) (number : Nat) (c : Copy) : Prop :=
  ∃ target, l.expansion.resolve c.instruction.next c.call = .ok target ∧
    l.positionOf number + c.sizeAt (l.positionOf number) = l.positionOf target

instance (l : Layout) (number : Nat) (c : Copy) : Decidable (l.KeepsFallThrough number c) :=
  match h : l.expansion.resolve c.instruction.next c.call with
  | .ok target =>
    decidable_of_iff (l.positionOf number + c.sizeAt (l.positionOf number) = l.positionOf target) (by
      unfold KeepsFallThrough
      simp [h])
  | .error e => .isFalse (by
      unfold KeepsFallThrough
      simp [h])

/-- All copies from one number up to another are left out. -/
def Adjoins (l : Layout) (j k : Nat) : Prop :=
  ∀ (number : Nat) (c : Copy), min j k ≤ number → number < max j k → l.expansion.copies[number]? = some c →
    c.isEmitted = false

theorem adjoins_comm {l : Layout} {j k : Nat} : l.Adjoins j k ↔ l.Adjoins k j := by
  unfold Adjoins
  rw [Nat.min_comm, Nat.max_comm]

end Layout

namespace Verified.Lays

variable {v : Verified} {code : List UInt8} {l : Layout}

theorem startOf_eq_iff_of_le (h : v.Lays code l) {j k : Nat} (hjk : j ≤ k) (hk : k ≤ l.expansion.copies.size) :
    l.startOf j = l.startOf k ↔ l.Adjoins j k := by
  unfold Layout.Adjoins
  rw [Nat.min_eq_left hjk, Nat.max_eq_right hjk]
  -- peel off the last copy; starts never go back
  induction k with
  | zero =>
    obtain rfl : j = 0 := by omega
    simp
  | succ k ih =>
    rcases Nat.lt_or_eq_of_le hjk with hlt | rfl
    · have hget := Array.getElem?_eq_getElem (show k < l.expansion.copies.size by omega)
      have hsucc := h.start_succ k _ hget
      have hbefore := h.start_mono (show j ≤ k by omega) (show k ≤ l.expansion.copies.size by omega)
      have hlast := h.sizeAt_eq_zero_iff hget (l.startOf k)
      have ih := ih (by omega) (by omega)
      constructor
      · intro heq number c hj hnumber hc
        rcases Nat.lt_or_eq_of_le (Nat.le_of_lt_succ hnumber) with hless | rfl
        · exact ih.mp (by omega) number c hj hless hc
        · obtain rfl := Option.some.inj (hget.symm.trans hc)
          exact hlast.mp (by omega)
      · intro hall
        have hzero := hlast.mpr (hall k _ (by omega) (by omega) hget)
        have hfront := ih.mpr fun number c hj hnumber hc => hall number c hj (by omega) hc
        omega
    · constructor
      · intro _ number c hj hnumber
        omega
      · intro _
        rfl

/-- Two copies have one position exactly if nothing is emitted from the one up to the other. -/
theorem startOf_eq_iff (h : v.Lays code l) {j k : Nat} (hj : j ≤ l.expansion.copies.size)
    (hk : k ≤ l.expansion.copies.size) : l.startOf j = l.startOf k ↔ l.Adjoins j k := by
  rcases Nat.le_total j k with hjk | hkj
  · exact h.startOf_eq_iff_of_le hjk hk
  · rw [eq_comm, h.startOf_eq_iff_of_le hkj hj]
    exact Layout.adjoins_comm

/-- Fall-through is kept exactly if the copy to fall into adjoins. -/
theorem keepsFallThrough_iff_adjoins (h : v.Lays code l) {number : Nat} {c : Copy}
    (hc : l.expansion.copies[number]? = some c) (hnext : c.instruction.next < code.length) :
    l.KeepsFallThrough number c ↔
      ∃ target, l.expansion.Reaches c.instruction.next c.call target ∧ l.Adjoins (number + 1) target := by
  have hnumber : number < l.expansion.copies.size := (Array.getElem?_eq_some_iff.mp hc).1
  have hbehind : l.positionOf number + c.sizeAt (l.positionOf number) = l.startOf (number + 1) := by
    rw [h.positionOf_eq hc, h.start_succ number c hc]
  unfold Layout.KeepsFallThrough
  rw [hbehind]
  constructor
  · rintro ⟨target, hresolve, hposition⟩
    have hreaches := (h.resolve_eq_ok_iff hnext).mp hresolve
    obtain ⟨c', hc', -, -⟩ := id hreaches
    have htarget : target < l.expansion.copies.size := (Array.getElem?_eq_some_iff.mp hc').1
    rw [h.positionOf_eq hc'] at hposition
    exact ⟨target, hreaches, (h.startOf_eq_iff hnumber (Nat.le_of_lt htarget)).mp hposition⟩
  · rintro ⟨target, hreaches, hadjoins⟩
    obtain ⟨c', hc', -, -⟩ := id hreaches
    have htarget : target < l.expansion.copies.size := (Array.getElem?_eq_some_iff.mp hc').1
    refine ⟨target, (h.resolve_eq_ok_iff hnext).mpr hreaches, ?_⟩
    rw [h.positionOf_eq hc']
    exact (h.startOf_eq_iff hnumber (Nat.le_of_lt htarget)).mpr hadjoins

end Verified.Lays

/-- Control falls into an instruction that is looked at too, with the same subroutines active or fewer. -/
theorem Settled.falls_within {method : Method} {v : Verified} {setup : Setup} {s : Session} {index : Nat}
    {i : Instruction} {nesting : Nesting} (h : Settled method v setup s) (hi : v.body.get? index = some i)
    (hactive : v.activeAt? index = some nesting) (hon : i.runsOn = true) :
    ∃ next nesting', v.body.get? (index + 1) = some next ∧ next.position = i.next ∧
      v.activeAt? (index + 1) = some nesting' ∧ nesting.Within nesting' := by
  rw [h.activeAt?_eq hi] at hactive
  obtain ⟨frame, hframe, rfl⟩ := Option.map_eq_some_iff.mp hactive
  obtain ⟨left, next, after, honward, hnext, hafter, hbelow⟩ := h.onward hi hframe hon
  refine ⟨next, after.nesting, hnext, h.tiles.position_succ hi hnext, ?_, ?_⟩
  · rw [h.activeAt?_eq hnext, hafter]
    rfl
  · have hsame : left.nesting = frame.nesting := (Instruction.onward_effect Exec.sameShape_effect honward).2
    rw [← hsame]
    exact hbelow.nesting

/-- **Where fall-through is kept.**  Control falls from a copy into an instruction at which the same subroutines
are active or fewer.  It finds the copy of that instruction right behind exactly if they are the same, or there
is a copy in an enclosing call and nothing is emitted up to it. -/
theorem keepsFallThrough_iff {method : Method} {v : Verified} {l : Layout} {number : Nat} {c : Copy}
    (hfits : method.code.bytes.length < 2 ^ 64) (hverify : method.verify = .ok v) (hlayout : v.layout = .ok l)
    (hc : l.expansion.copies[number]? = some c) (hon : c.instruction.runsOn = true) :
    ∃ next nesting, v.body.get? (c.index + 1) = some next ∧ next.position = c.instruction.next ∧
      v.activeAt? (c.index + 1) = some nesting ∧
      (nesting = c.call.nesting ∨ nesting.length < c.call.nesting.length) ∧
      (nesting = c.call.nesting → l.expansion.resolve c.instruction.next c.call = .ok (number + 1)) ∧
      (l.KeepsFallThrough number c ↔ nesting = c.call.nesting ∨
        nesting.length < c.call.nesting.length ∧
          ∃ target, l.expansion.Reaches c.instruction.next c.call target ∧ l.Adjoins (number + 1) target) := by
  obtain ⟨setup, s, hsettled⟩ := Method.settled hfits hverify
  have hlays := Verified.lays_of_layout hsettled.tiles hlayout
  have hcopy := hlays.isCopy number c hc
  obtain ⟨next, nesting, hnext, hposition, hactive, hwithin⟩ :=
    hsettled.falls_within hcopy.get hcopy.active hon
  have hinside : c.instruction.next < method.code.bytes.length := by
    rw [← hposition]
    exact hsettled.tiles.position_lt_length hnext
  -- with the same subroutines active, the next copy is that of the next instruction
  have hsame : nesting = c.call.nesting → l.expansion.Reaches c.instruction.next c.call (number + 1) := by
    intro heq
    have hleaf : ∀ target, c.instruction.flow ≠ .jsr target := by
      intro target hflow
      simp [Instruction.runsOn, hflow] at hon
    obtain ⟨c', hc', -, hinstruction, hcall⟩ :=
      hlays.follows number c next hc hleaf hnext (by rw [hactive, heq])
    refine ⟨c', hc', ?_, ?_⟩
    · show c'.instruction.position = c.instruction.next
      rw [hinstruction, hposition]
    · exact hcall ▸ List.prefix_refl _
  refine ⟨next, nesting, hnext, hposition, hactive, hwithin, ?_, ?_⟩
  · intro heq
    exact (hlays.resolve_eq_ok_iff hinside).mpr (hsame heq)
  · rw [hlays.keepsFallThrough_iff_adjoins hc hinside]
    constructor
    · intro hkept
      rcases hwithin with heq | hless
      · exact Or.inl heq
      · exact Or.inr ⟨hless, hkept⟩
    · rintro (heq | ⟨-, hkept⟩)
      · refine ⟨number + 1, hsame heq, ?_⟩
        intro k c' hmin hmax
        omega
      · exact hkept

/-- A body whose subroutine runs out into code that is also reached from outside of it:

    0 iconst_0;  1 ifeq 9;  4 jsr 15;  7 nop;  8 nop;  9 iinc 0 1;  12 goto 17;  15 astore_1;  16 nop;  17 return
-/
def fallingOut : Method := .bare ⟨[.base .int], none⟩ 1 2
  [0x03, 0x99, 0x00, 0x08, 0xa8, 0x00, 0x0b, 0x00, 0x00, 0x84, 0x00, 0x01, 0xa7, 0x00, 0x05, 0x4c, 0x00, 0xb1]

/-- The `nop` at 16 falls out of the subroutine into the `return` at 17, where no subroutine is active.  Behind its
copy comes the copy of the `iinc` at 9. -/
theorem fallThrough_out_of_subroutine :
    ∃ v l c nesting, fallingOut.verify = .ok v ∧ v.layout = .ok l ∧ l.expansion.copies[4]? = some c ∧
      c.position = 16 ∧ c.instruction.runsOn = true ∧ ¬ l.KeepsFallThrough 4 c ∧
      v.activeAt? (c.index + 1) = some nesting ∧ nesting.length < c.call.nesting.length := by
  obtain ⟨v, l, hverify, hlayout, htest⟩ := @Method.exists_layout_of_within fallingOut 10
    (fun _ l => l.expansion.copies[4]?.any fun c =>
      c.position = 16 && c.instruction.runsOn && !decide (l.KeepsFallThrough 4 c)) (by decide +kernel)
  obtain ⟨c, hc, htest⟩ := (Option.any_eq_true _ _).mp htest
  simp only [Bool.and_eq_true, decide_eq_true_eq, Bool.not_eq_true', decide_eq_false_iff_not] at htest
  obtain ⟨⟨hposition, hon⟩, hlost⟩ := htest
  obtain ⟨next, nesting, -, -, hactive, hwithin, -, hkept⟩ := keepsFallThrough_iff (by decide) hverify hlayout hc hon
  refine ⟨v, l, c, nesting, hverify, hlayout, hc, hposition, hon, hlost, hactive, ?_⟩
  apply hwithin.resolve_left
  intro heq
  exact hlost (hkept.mpr (Or.inl heq))

end Bytecode
