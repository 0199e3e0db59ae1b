import Bytecode.Proofs.ExceptionRanges
import Bytecode.Proofs.Transfers

/-!
# Exceptions go to the same handlers

The new exception table is searched like the old one: around a copy it has one entry for each old entry that covers the
instruction and whose handler has a copy in the call or in one around it, in the order of the old table, and no other.

* `Layout.rangesFrom_ascending`, `Verified.Lays.ranges_around`: ranges do not overlap, so one range at most holds a
  position;
* `Verified.nodup_copiesOf`: a copy is listed once among those of its position;
* `Verified.Lays.handlerEntries_around`: what an old entry becomes around a copy;
* `Layout.Dispatches` and `exceptions_dispatched`: the whole table.
-/

namespace Bytecode

/-- An entry of an exception table protects a position. -/
def ExceptionHandler.covers (e : ExceptionHandler) (position : Nat) : Bool :=
  e.startPc.toNat ≤ position && position < e.endPc.toNat

/-- A position has a copy in a call or in one around it. -/
def Expansion.hasCopy (e : Expansion) (position : Nat) (source : Call) : Bool :=
  e.copies.any fun c => c.position = position && source.canGoto c.call

theorem Expansion.hasCopy_iff {e : Expansion} {position : Nat} {source : Call} :
    e.hasCopy position source = true ↔ ∃ number, e.Reaches position source number := by
  unfold hasCopy Reaches
  rw [Array.any_eq_true']
  simp only [Bool.and_eq_true, decide_eq_true_eq, Call.canGoto_iff]
  constructor
  · rintro ⟨c, hc, hposition, houter⟩
    obtain ⟨number, hnumber⟩ := Array.mem_iff_getElem?.mp hc
    exact ⟨number, c, hnumber, hposition, houter⟩
  · rintro ⟨number, c, hc, hposition, houter⟩
    exact ⟨c, Array.mem_of_getElem? hc, hposition, houter⟩

/-! ## Lists in which one element counts -/

theorem flatMap_eq_of_unique {α β : Type} {f : α → List β} {as : List α} {a : α} (hnodup : as.Nodup) (ha : a ∈ as)
    (hothers : ∀ b ∈ as, b ≠ a → f b = []) : as.flatMap f = f a := by
  obtain ⟨front, back, rfl⟩ := List.append_of_mem ha
  have hmiddle := (List.nodup_middle.mp hnodup)
  have hempty : ∀ b ∈ front ++ back, f b = [] := by
    intro b hb
    apply hothers b
    · simp only [List.mem_append, List.mem_cons] at hb ⊢
      exact hb.imp_right Or.inr
    · rintro rfl
      exact (List.nodup_cons.mp hmiddle).1 hb
  have hfront : front.flatMap f = [] :=
    List.flatMap_eq_nil_iff.mpr fun b hb => hempty b (List.mem_append_left _ hb)
  have hback : back.flatMap f = [] :=
    List.flatMap_eq_nil_iff.mpr fun b hb => hempty b (List.mem_append_right _ hb)
  rw [List.flatMap_append, List.flatMap_cons, hfront, hback, List.nil_append, List.append_nil]

/-- Where each element that counts becomes one and each other none, results stand in the order of the elements. -/
theorem forall₂_filter_flatMap {α β : Type} {R : α → β → Prop} {counts : α → Bool} {f : α → List β} {as : List α}
    (hone : ∀ a ∈ as, counts a = true → ∃ b, f a = [b] ∧ R a b) (hnone : ∀ a ∈ as, counts a = false → f a = []) :
    List.Forall₂ R (as.filter counts) (as.flatMap f) := by
  induction as with
  | nil => exact .nil
  | cons a as ih =>
    have hrest := ih (fun b hb => hone b (List.mem_cons_of_mem _ hb)) fun b hb => hnone b (List.mem_cons_of_mem _ hb)
    rw [List.flatMap_cons]
    cases hcounts : counts a with
    | false =>
      rw [List.filter_cons_of_neg (by simp [hcounts]), hnone a (List.mem_cons_self ..) hcounts]
      exact hrest
    | true =>
      obtain ⟨b, hb, hab⟩ := hone a (List.mem_cons_self ..) hcounts
      rw [List.filter_cons_of_pos hcounts, hb]
      exact .cons hab hrest

namespace Layout

/-! ## Ranges do not overlap -/

/-- Between two ranges there is a position that is not covered. -/
theorem rangesFrom_ascending {stop : Nat} {first : Option Nat} {marked : List (Nat × Bool)}
    (hascending : marked.Pairwise fun m m' => m.1 < m'.1) :
    (rangesFrom stop first marked).Pairwise fun r r' => r.2 < r'.1 := by
  fun_induction rangesFrom stop first marked with
  | case1 => exact .nil
  | case2 first => exact List.pairwise_singleton _ _
  | case3 position covered rest ih => exact ih (List.pairwise_cons.mp hascending).2
  | case4 first position rest ih => exact ih (List.pairwise_cons.mp hascending).2
  | case5 first position covered rest hcovered ih =>
    obtain ⟨hposition, hrest⟩ := List.pairwise_cons.mp hascending
    refine List.pairwise_cons.mpr ⟨?_, ih hrest⟩
    intro r hr
    -- ranges of the rest begin at its positions
    rcases rangesFrom_start hr with hopen | ⟨m, hm, hstart⟩
    · simp at hopen
    · rw [← hstart]
      exact hposition m hm

/-- Does a range hold a position? -/
def inRange (position : Nat) (r : Nat × Nat) : Bool := r.1 ≤ position && position < r.2

theorem inRange_iff {position : Nat} {r : Nat × Nat} : inRange position r = true ↔ r.1 ≤ position ∧ position < r.2 := by
  simp [inRange]

/-- The new entry with a copy of the handler is the old entry over a range of new positions. -/
def entryOver (l : Layout) (e : ExceptionHandler) (m : Nat) (r : Nat × Nat) : ExceptionHandler :=
  { e with
    startPc := UInt16.ofNat r.1
    endPc := UInt16.ofNat r.2
    handlerPc := UInt16.ofNat (l.positionOf m) }

theorem handlerEntries_eq (l : Layout) (e : ExceptionHandler) :
    l.handlerEntries e = (l.expansion.copiesOf e.handlerPc.toNat).flatMap fun m =>
      (l.expansion.copies[m]?.map fun handler => (l.ranges (protects e handler)).map (l.entryOver e m)).getD [] := by
  unfold handlerEntries
  congr 1
  funext m
  cases l.expansion.copies[m]? with
  | none => rfl
  | some handler => rfl

/-- An entry of the new table does for code in a call what an old one did: it catches the same, and leads to the one
copy of the handler in the call or in one around it. -/
def Redirects (l : Layout) (source : Call) (e new : ExceptionHandler) : Prop :=
  new.catchType = e.catchType ∧
    ∃ m, l.expansion.TheCopy e.handlerPc.toNat source m ∧ new.handlerPc.toNat = l.positionOf m

/-- The new table dispatches like the old one. -/
structure Dispatches (l : Layout) (old : List ExceptionHandler) (bytes : List UInt8) (new : List ExceptionHandler) :
    Prop where
  /-- The entries around a copy stand for the old entries around its instruction whose handlers have a copy in the
  call or in one around it, one for one and in order. -/
  around : ∀ (number : Nat) (c : Copy), l.expansion.copies[number]? = some c → c.isEmitted = true →
    List.Forall₂ (l.Redirects c.call)
      (old.filter fun e => e.covers c.position && l.expansion.hasCopy e.handlerPc.toNat c.call)
      (new.filter fun e => e.covers (l.positionOf number))
  /-- Every range begins at a copy that is emitted, -/
  start : ∀ e ∈ new, ∃ placed ∈ l.emitted, placed.2 = e.startPc.toNat
  /-- ends at one or with the code, -/
  stop : ∀ e ∈ new, e.endPc.toNat = bytes.length ∨ ∃ placed ∈ l.emitted, placed.2 = e.endPc.toNat
  /-- and holds a position. -/
  nonempty : ∀ e ∈ new, e.startPc.toNat < e.endPc.toNat
  /-- Nothing is cut off from the numbers that are put into entries: the bounds of ranges, -/
  bounds_fit : ∀ (covered : Copy → Bool), ∀ r ∈ l.ranges covered,
    (UInt16.ofNat r.1).toNat = r.1 ∧ (UInt16.ofNat r.2).toNat = r.2
  /-- and the positions of handlers. -/
  handlers_fit : ∀ m, (UInt16.ofNat (l.positionOf m)).toNat = l.positionOf m

end Layout

/-- The copies of a position are listed once each. -/
theorem Verified.nodup_copiesOf {v : Verified} {l : Layout} (h : v.layout = .ok l) {position : Nat}
    (hposition : position < v.body.codeLength) : (l.expansion.copiesOf position).Nodup := by
  unfold layout at h
  obtain ⟨e, hbindReturns, hlayout⟩ := bind_eq_ok.mp h
  obtain ⟨rfl, -⟩ := Layout.ofExpansion_spec hlayout
  have hplaces := (Expansion.binds_of_bindReturns hbindReturns).places
  have hsame : l.expansion.copiesOf position =
      (Expansion.ofCopies v.body.codeLength v.copies).copiesOf position := by
    unfold Expansion.copiesOf
    rw [hplaces]
  rw [hsame, Expansion.copiesOf_ofCopies _ hposition]
  have hnumbers : (v.copies.zipIdx.map Prod.snd).Nodup := by
    rw [List.zipIdx_map_snd]
    exact List.nodup_range'
  exact hnumbers.sublist (List.filter_sublist.map Prod.snd)

namespace Verified.Lays

variable {v : Verified} {code bytes : List UInt8} {l : Layout} {number : Nat} {c : Copy}

theorem ranges_ascending (h : v.Lays code l) (covered : Copy → Bool) :
    (l.ranges covered).Pairwise fun r r' => r.2 < r'.1 := by
  unfold Layout.ranges
  refine List.Pairwise.filter _ (Layout.rangesFrom_ascending ?_)
  rw [List.pairwise_map]
  exact h.emitted_ascending

/-- Around a copy that is to be covered there is one range, around another there is none. -/
theorem ranges_around (h : v.Lays code l) (covered : Copy → Bool) (hc : l.expansion.copies[number]? = some c)
    (hemitted : c.isEmitted = true) :
    (covered c = true → ∃ r ∈ l.ranges covered, (l.ranges covered).filter (Layout.inRange (l.startOf number)) = [r]) ∧
      (covered c = false → (l.ranges covered).filter (Layout.inRange (l.startOf number)) = []) := by
  have hcover := h.ranges_cover covered hc hemitted
  constructor
  · intro hcovered
    obtain ⟨r, hr, hinside⟩ := hcover.mpr hcovered
    have hmem : r ∈ (l.ranges covered).filter (Layout.inRange (l.startOf number)) :=
      List.mem_filter.mpr ⟨hr, Layout.inRange_iff.mpr hinside⟩
    have hascending := (h.ranges_ascending covered).filter (Layout.inRange (l.startOf number))
    have hall : ∀ r' ∈ (l.ranges covered).filter (Layout.inRange (l.startOf number)),
        r'.1 ≤ l.startOf number ∧ l.startOf number < r'.2 :=
      fun r' hr' => Layout.inRange_iff.mp (List.mem_filter.mp hr').2
    -- a second range could only begin behind the end of the first
    generalize (l.ranges covered).filter (Layout.inRange (l.startOf number)) = around at hmem hascending hall
    cases around with
    | nil => simp at hmem
    | cons first others =>
      cases others with
      | nil =>
        obtain rfl := List.mem_singleton.mp hmem
        exact ⟨r, hr, rfl⟩
      | cons second others =>
        have hbehind := (List.pairwise_cons.mp hascending).1 second (List.mem_cons_self ..)
        have hfirst := hall first (List.mem_cons_self ..)
        have hsecond := hall second (List.mem_cons_of_mem _ (List.mem_cons_self ..))
        omega
  · intro hcovered
    rw [List.filter_eq_nil_iff]
    intro r hr hinside
    have hsome := hcover.mp ⟨r, hr, Layout.inRange_iff.mp hinside⟩
    rw [hcovered] at hsome
    simp at hsome

theorem range_fits (h : v.Lays code l) {covered : Copy → Bool} {r : Nat × Nat} (hr : r ∈ l.ranges covered) :
    (UInt16.ofNat r.1).toNat = r.1 ∧ (UInt16.ofNat r.2).toNat = r.2 := by
  obtain ⟨horder, -, hstop⟩ := h.range_bounds hr
  have hend : r.2 ≤ l.size := by
    rcases hstop with heq | ⟨n, c, hc, hemitted, heq⟩
    · exact Nat.le_of_eq heq
    · rw [← heq]
      exact Nat.le_of_lt (h.startOf_lt_size hc hemitted)
  exact ⟨h.toNat_ofNat (by omega), h.toNat_ofNat hend⟩

/-- The entries that an old entry gets for one copy of its handler, around a copy. -/
theorem entriesOver_around (h : v.Lays code l) {e : ExceptionHandler} {m : Nat} {handler : Copy}
    (hhandler : l.expansion.copies[m]? = some handler) (hposition : handler.position = e.handlerPc.toNat)
    (hc : l.expansion.copies[number]? = some c) (hemitted : c.isEmitted = true) :
    let entries := ((l.ranges (Layout.protects e handler)).map (l.entryOver e m)).filter fun new =>
      new.covers (l.startOf number)
    (e.covers c.position = true ∧ l.expansion.Reaches e.handlerPc.toNat c.call m →
        ∃ r, entries = [l.entryOver e m r]) ∧
      (¬ (e.covers c.position = true ∧ l.expansion.Reaches e.handlerPc.toNat c.call m) → entries = []) := by
  have hprotects : Layout.protects e handler c = true ↔
      e.covers c.position = true ∧ l.expansion.Reaches e.handlerPc.toNat c.call m := by
    rw [protects_iff hhandler hposition]
    unfold ExceptionHandler.covers
    simp only [Bool.and_eq_true, decide_eq_true_eq, and_assoc]
  -- an entry covers the positions of its range
  have hfilter : ((l.ranges (Layout.protects e handler)).map (l.entryOver e m)).filter
        (fun new => new.covers (l.startOf number)) =
      ((l.ranges (Layout.protects e handler)).filter (Layout.inRange (l.startOf number))).map (l.entryOver e m) := by
    rw [List.filter_map]
    congr 1
    refine List.filter_congr fun r hr => ?_
    obtain ⟨hstart, hstop⟩ := h.range_fits hr
    unfold Function.comp ExceptionHandler.covers Layout.entryOver Layout.inRange
    simp only [hstart, hstop]
  obtain ⟨hone, hnone⟩ := h.ranges_around (Layout.protects e handler) hc hemitted
  dsimp only
  rw [hfilter, ← hprotects]
  constructor
  · intro hcovered
    obtain ⟨r, -, hr⟩ := hone hcovered
    exact ⟨r, by rw [hr]; rfl⟩
  · intro hcovered
    rw [hnone (Bool.not_eq_true _ ▸ hcovered)]
    rfl

/-- What an old entry becomes around a copy: one entry if it protects the copy, none otherwise. -/
theorem handlerEntries_around (h : v.Lays code l) (hlayout : v.layout = .ok l) {e : ExceptionHandler}
    (hhandler : e.handlerPc.toNat < code.length) (hc : l.expansion.copies[number]? = some c)
    (hemitted : c.isEmitted = true) :
    let counts := e.covers c.position && l.expansion.hasCopy e.handlerPc.toNat c.call
    let entries := (l.handlerEntries e).filter fun new => new.covers (l.startOf number)
    (counts = true → ∃ new, entries = [new] ∧ l.Redirects c.call e new) ∧ (counts = false → entries = []) := by
  -- the entries for one copy of the handler
  have hfor : ∀ m ∈ l.expansion.copiesOf e.handlerPc.toNat,
      let entries := ((l.expansion.copies[m]?.map fun handler =>
        (l.ranges (Layout.protects e handler)).map (l.entryOver e m)).getD []).filter fun new =>
          new.covers (l.startOf number)
      (e.covers c.position = true ∧ l.expansion.Reaches e.handlerPc.toNat c.call m →
          ∃ r, entries = [l.entryOver e m r]) ∧
        (¬ (e.covers c.position = true ∧ l.expansion.Reaches e.handlerPc.toNat c.call m) → entries = []) := by
    intro m hm
    obtain ⟨handler, hget, hposition⟩ := (h.indexed _ m hhandler).mp hm
    rw [hget]
    exact h.entriesOver_around hget hposition hc hemitted
  dsimp only
  rw [Layout.handlerEntries_eq, List.filter_flatMap]
  constructor
  · intro hcounts
    obtain ⟨hcovers, hcopy⟩ := Bool.and_eq_true_iff.mp hcounts
    obtain ⟨m, hreaches⟩ := Expansion.hasCopy_iff.mp hcopy
    have hunique : ∀ m', l.expansion.Reaches e.handlerPc.toNat c.call m' → m' = m :=
      fun m' hreaches' => h.reaches_unique hreaches' hreaches
    have hm : m ∈ l.expansion.copiesOf e.handlerPc.toNat := by
      obtain ⟨handler, hget, hposition, -⟩ := id hreaches
      exact (h.indexed _ m hhandler).mpr ⟨handler, hget, hposition⟩
    have hnodup : (l.expansion.copiesOf e.handlerPc.toNat).Nodup :=
      nodup_copiesOf hlayout (by rw [h.tiles.codeLength_eq]; exact hhandler)
    obtain ⟨r, hr⟩ := (hfor m hm).1 ⟨hcovers, hreaches⟩
    refine ⟨l.entryOver e m r, ?_, rfl, m, ⟨hreaches, hunique⟩, h.toNat_ofNat (h.positionOf_le m)⟩
    rw [flatMap_eq_of_unique hnodup hm, hr]
    intro m' hm' hne
    exact (hfor m' hm').2 fun hboth => hne (hunique m' hboth.2)
  · intro hcounts
    rw [List.flatMap_eq_nil_iff]
    intro m hm
    refine (hfor m hm).2 fun hboth => ?_
    rw [hboth.1, Bool.true_and, ← Bool.not_eq_true, Expansion.hasCopy_iff] at hcounts
    exact hcounts ⟨m, hboth.2⟩

theorem dispatches (h : v.Lays code l) (hlayout : v.layout = .ok l) (hemits : l.Emits bytes)
    {table : List ExceptionHandler} (htable : ∀ e ∈ table, e.handlerPc.toNat < code.length) :
    l.Dispatches table bytes (l.exceptionTable table) := by
  have hentry : ∀ new ∈ l.exceptionTable table, ∃ covered, ∃ r ∈ l.ranges covered,
      new.startPc.toNat = r.1 ∧ new.endPc.toNat = r.2 := by
    intro new hnew
    obtain ⟨e, -, m, handler, -, -, r, hr, rfl⟩ := (h.mem_exceptionTable_iff htable).mp hnew
    exact ⟨_, r, hr, h.range_fits hr⟩
  refine ⟨?_, ?_, ?_, ?_, fun covered r hr => h.range_fits hr, fun m => h.toNat_ofNat (h.positionOf_le m)⟩
  · intro number c hc hemitted
    unfold Layout.exceptionTable
    rw [List.filter_flatMap, h.positionOf_eq hc]
    apply forall₂_filter_flatMap
    · intro e he
      exact (h.handlerEntries_around hlayout (htable e he) hc hemitted).1
    · intro e he
      exact (h.handlerEntries_around hlayout (htable e he) hc hemitted).2
  · intro new hnew
    obtain ⟨covered, r, hr, hstart, -⟩ := hentry new hnew
    obtain ⟨-, ⟨n, c, hc, hemitted, -, hposition⟩, -⟩ := h.range_bounds hr
    exact ⟨(c, r.1), h.mem_emitted_iff.mpr ⟨n, hc, hemitted, hposition⟩, hstart.symm⟩
  · intro new hnew
    obtain ⟨covered, r, hr, -, hstop⟩ := hentry new hnew
    rw [hstop, hemits.length_eq]
    refine (h.range_bounds hr).2.2.imp_right ?_
    rintro ⟨n, c, hc, hemitted, hposition⟩
    exact ⟨(c, r.2), h.mem_emitted_iff.mpr ⟨n, hc, hemitted, hposition⟩, rfl⟩
  · intro new hnew
    obtain ⟨covered, r, hr, hstart, hstop⟩ := hentry new hnew
    rw [hstart, hstop]
    exact (h.range_bounds hr).1

end Verified.Lays

/-- The new exception table of a method dispatches like the old one. -/
theorem exceptions_dispatched {method : Method} {v : Verified} {pool : ConstantPool} {out : Code}
    (hfits : method.code.bytes.length < 2 ^ 64) (hverify : method.verify = .ok v)
    (hinline : v.inline method.code pool = .ok out) :
    ∃ l, v.layout = .ok l ∧ l.Dispatches method.code.exceptionTable out.bytes out.exceptionTable := by
  obtain ⟨setup, s, hsettled⟩ := Method.settled hfits hverify
  obtain ⟨l, hlayout, hemit, htable, -⟩ := Verified.inline_eq_ok hinline
  have hlays := Verified.lays_of_layout hsettled.tiles hlayout
  refine ⟨l, hlayout, ?_⟩
  rw [htable]
  exact hlays.dispatches hlayout (hlays.emits_of_emit hemit) fun e he => (hsettled.table e he).1

/-- A body with a subroutine that is called twice, and three handlers; the first of them runs inside the subroutine:

    0 jsr 8;  3 nop;  4 jsr 8;  7 return;  8 astore_0;  9 nop;  10 ret 0;  12 pop;  13 return;  14 athrow;  15 pop;
    16 goto 10
-/
def threeHandlers : Method :=
  (Method.bare ⟨[], none⟩ 1 1
    [0xa8, 0x00, 0x08, 0x00, 0xa8, 0x00, 0x04, 0xb1, 0x4b, 0x00, 0xa9, 0x00, 0x57, 0xb1, 0xbf, 0x57, 0xa7, 0xff,
      0xfa]).guarded [⟨9, 10, 15, 0⟩, ⟨3, 10, 12, 0⟩, ⟨0, 12, 14, 0⟩]

/-- The second copy of the `nop` at 9 is guarded by all three handlers, the first of them in its own copy. -/
theorem exceptions_dispatched_threeHandlers :
    ∃ v out l c, threeHandlers.verify = .ok v ∧ v.inline threeHandlers.code .empty = .ok out ∧ v.layout = .ok l ∧
      l.Dispatches threeHandlers.code.exceptionTable out.bytes out.exceptionTable ∧
      l.expansion.copies[9]? = some c ∧ c.isEmitted = true ∧ c.position = 9 ∧ l.positionOf 9 = 9 ∧
      (out.exceptionTable.filter fun e => e.covers 9) = [⟨9, 10, 13, 0⟩, ⟨8, 10, 18, 0⟩, ⟨8, 13, 20, 0⟩] := by
  obtain ⟨v, l, hverify, hlayout, htest⟩ := @Method.exists_layout_of_within threeHandlers 30
    (fun v l => (v.inline threeHandlers.code .empty).toOption.any (fun out =>
        (out.exceptionTable.filter fun e => e.covers 9) = [⟨9, 10, 13, 0⟩, ⟨8, 10, 18, 0⟩, ⟨8, 13, 20, 0⟩]) &&
      l.expansion.copies[9]?.any (fun c => c.isEmitted && c.position = 9) && l.positionOf 9 = 9) (by decide +kernel)
  simp only [Bool.and_eq_true, Option.any_eq_true, decide_eq_true_eq] at htest
  obtain ⟨⟨⟨out, hout, hentries⟩, c, hc, hemitted, hposition⟩, hstart⟩ := htest
  have hinline : v.inline threeHandlers.code .empty = .ok out := toOption_eq_some.mp hout
  obtain ⟨l', hlayout', hdispatches⟩ := exceptions_dispatched (by decide) hverify hinline
  obtain rfl := Except.ok.inj (hlayout.symm.trans hlayout')
  exact ⟨v, out, l, c, hverify, hinline, hlayout, hdispatches, hc, hemitted, hposition, hstart, hentries⟩

end Bytecode
