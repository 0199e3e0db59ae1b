import Bytecode.Proofs.DecodedCopies
import Bytecode.Proofs.Fixpoint

/-!
# Exception tables of the new code

An entry of the exception table gets new entries for each copy of its handler, over maximal ranges of the copies of the
protected code that can go to it.

* `Layout.rangesFrom_covers`, `Verified.Lays.ranges_cover`: the ranges hold the positions of exactly the copies that are
  to be covered, among those that are emitted;
* `Layout.Catches`: the types that are caught around a copy, and the copies of the handlers;
* `Verified.Lays.resolved_iff`: the new entries are accepted exactly if the copies of their handlers start inside the code;
* `Verified.Lays.handles_iff`: around the instruction of a copy, what is caught around the copy is caught.
-/

namespace Bytecode

namespace Layout

/-! ## Ranges of positions -/

variable {stop : Nat} {first : Option Nat} {marked : List (Nat × Bool)} {r : Nat × Nat}

/-- A range begins at one of the positions, or it was open. -/
theorem rangesFrom_start (h : r ∈ rangesFrom stop first marked) : first = some r.1 ∨ ∃ m ∈ marked, m.1 = r.1 := by
  fun_induction rangesFrom stop first marked with
  | case1 => simp at h
  | case2 first =>
    obtain rfl : r = (first, stop) := by simpa using h
    exact Or.inl rfl
  | case3 position covered rest ih =>
    rcases ih h with hopen | ⟨m, hm, hstart⟩
    · split at hopen
      · exact Or.inr ⟨(position, covered), List.mem_cons_self .., Option.some.inj hopen⟩
      · simp at hopen
    · exact Or.inr ⟨m, List.mem_cons_of_mem _ hm, hstart⟩
  | case4 first position rest ih =>
    rcases ih h with hopen | ⟨m, hm, hstart⟩
    · exact Or.inl hopen
    · exact Or.inr ⟨m, List.mem_cons_of_mem _ hm, hstart⟩
  | case5 first position covered rest hcovered ih =>
    rcases List.mem_cons.mp h with rfl | h
    · exact Or.inl rfl
    · rcases ih h with hopen | ⟨m, hm, hstart⟩
      · simp at hopen
      · exact Or.inr ⟨m, List.mem_cons_of_mem _ hm, hstart⟩

/-- A range ends at one of the positions or at the stop. -/
theorem rangesFrom_stop (h : r ∈ rangesFrom stop first marked) : r.2 = stop ∨ ∃ m ∈ marked, m.1 = r.2 := by
  fun_induction rangesFrom stop first marked with
  | case1 => simp at h
  | case2 first =>
    obtain rfl : r = (first, stop) := by simpa using h
    exact Or.inl rfl
  | case3 position covered rest ih =>
    exact (ih h).imp_right fun ⟨m, hm, hstop⟩ => ⟨m, List.mem_cons_of_mem _ hm, hstop⟩
  | case4 first position rest ih =>
    exact (ih h).imp_right fun ⟨m, hm, hstop⟩ => ⟨m, List.mem_cons_of_mem _ hm, hstop⟩
  | case5 first position covered rest hcovered ih =>
    rcases List.mem_cons.mp h with rfl | h
    · exact Or.inr ⟨(position, covered), List.mem_cons_self .., rfl⟩
    · exact (ih h).imp_right fun ⟨m, hm, hstop⟩ => ⟨m, List.mem_cons_of_mem _ hm, hstop⟩

/-- A range that is open is closed. -/
theorem rangesFrom_open (stop first : Nat) (marked : List (Nat × Bool)) :
    ∃ last, (first, last) ∈ rangesFrom stop (some first) marked := by
  induction marked with
  | nil => exact ⟨stop, by simp [rangesFrom]⟩
  | cons m rest ih =>
    obtain ⟨position, covered⟩ := m
    rw [rangesFrom]
    split
    · exact ih
    · exact ⟨position, List.mem_cons_self ..⟩

/-- Ranges hold exactly the positions that are covered, if the positions ascend. -/
theorem rangesFrom_covers (hascending : marked.Pairwise fun m m' => m.1 < m'.1) (hstop : ∀ m ∈ marked, m.1 < stop)
    (hfirst : ∀ start, first = some start → ∀ m ∈ marked, start < m.1) {position : Nat} {covered : Bool}
    (hmem : (position, covered) ∈ marked) :
    (∃ r ∈ rangesFrom stop first marked, r.1 ≤ position ∧ position < r.2) ↔ covered = true := by
  induction marked generalizing first with
  | nil => simp at hmem
  | cons m rest ih =>
    obtain ⟨head, marks⟩ := m
    obtain ⟨hhead, hrest⟩ := List.pairwise_cons.mp hascending
    have hstop' : ∀ m ∈ rest, m.1 < stop := fun m hm => hstop m (List.mem_cons_of_mem _ hm)
    have hheadStop : head < stop := hstop (head, marks) (List.mem_cons_self ..)
    -- whatever comes from the rest ends behind the head, and starts behind it unless it was open
    have hbehind : ∀ {first' : Option Nat} {r : Nat × Nat}, r ∈ rangesFrom stop first' rest → head < r.2 := by
      intro first' r hr
      rcases rangesFrom_stop hr with hend | ⟨m, hm, hend⟩
      · omega
      · have := hhead m hm
        omega
    have hfresh : ∀ {r : Nat × Nat}, r ∈ rangesFrom stop none rest → head < r.1 := by
      intro r hr
      rcases rangesFrom_start hr with hopen | ⟨m, hm, hstart⟩
      · simp at hopen
      · have := hhead m hm
        omega
    cases marks with
    | true =>
      obtain ⟨start, hstart, hopen⟩ : ∃ start ≤ head,
          rangesFrom stop first ((head, true) :: rest) = rangesFrom stop (some start) rest := by
        cases first with
        | none => exact ⟨head, Nat.le_refl _, rfl⟩
        | some start => exact ⟨start, Nat.le_of_lt (hfirst start rfl _ (List.mem_cons_self ..)), rfl⟩
      rw [hopen]
      rcases List.mem_cons.mp hmem with heq | hmem
      · obtain ⟨rfl, rfl⟩ := Prod.mk.inj heq
        obtain ⟨last, hlast⟩ := rangesFrom_open stop start rest
        exact ⟨fun _ => rfl, fun _ => ⟨_, hlast, hstart, hbehind hlast⟩⟩
      · apply ih hrest hstop' _ hmem
        intro start' hsame m hm
        obtain rfl := Option.some.inj hsame
        exact Nat.lt_of_le_of_lt hstart (hhead m hm)
    | false =>
      have hclosed : ∀ r, r ∈ rangesFrom stop first ((head, false) :: rest) ↔
          first = some r.1 ∧ r.2 = head ∨ r ∈ rangesFrom stop none rest := by
        intro r
        cases first with
        | none => simp [rangesFrom]
        | some start => simp [rangesFrom, Prod.ext_iff, eq_comm]
      simp only [hclosed]
      rcases List.mem_cons.mp hmem with heq | hmem
      · obtain ⟨rfl, rfl⟩ := Prod.mk.inj heq
        refine ⟨?_, by simp⟩
        rintro ⟨r, ⟨-, hend⟩ | hr, hstart, hinside⟩
        · omega
        · have := hfresh hr
          omega
      · have hlater := hhead _ hmem
        rw [← @ih none hrest hstop' (by simp) hmem]
        constructor
        · rintro ⟨r, ⟨-, hend⟩ | hr, hstart, hinside⟩
          · omega
          · exact ⟨r, hr, hstart, hinside⟩
        · rintro ⟨r, hr, hinside⟩
          exact ⟨r, Or.inr hr, hinside⟩

/-- Is a copy in the range of an entry of the exception table, in a call from which control can go to a copy of the
handler? -/
def protects (e : ExceptionHandler) (handler c : Copy) : Bool :=
  e.startPc.toNat ≤ c.position && c.position < e.endPc.toNat && c.call.canGoto handler.call

/-- The types that are caught around a copy, and the copies of the handlers. -/
def Catches (l : Layout) (method : Method) (c : Copy) (type : VType) (m : Nat) : Prop :=
  ∃ e ∈ method.code.exceptionTable, e.startPc.toNat ≤ c.position ∧ c.position < e.endPc.toNat ∧
    method.Catches e type ∧ l.expansion.Reaches e.handlerPc.toNat c.call m

end Layout

namespace Verified.Lays

variable {v : Verified} {code bytes : List UInt8} {l : Layout} {number : Nat} {c : Copy}

/-! ## Ranges of copies -/

/-- The copies that are emitted, with their positions. -/
theorem mem_emitted_iff (h : v.Lays code l) {position : Nat} :
    (c, position) ∈ l.emitted ↔
      ∃ number, l.expansion.copies[number]? = some c ∧ c.isEmitted = true ∧ l.startOf number = position := by
  unfold Layout.emitted
  rw [List.mem_filter]
  constructor
  · rintro ⟨hmem, hemitted⟩
    obtain ⟨number, hget⟩ := List.mem_iff_getElem?.mp hmem
    have hc : l.expansion.copies[number]? = some c := by
      unfold Layout.toList at hget
      rw [List.getElem?_zip_eq_some, Array.getElem?_toList] at hget
      exact hget.1
    rw [h.getElem?_toList hc] at hget
    exact ⟨number, hc, hemitted, (Prod.mk.inj (Option.some.inj hget)).2⟩
  · rintro ⟨number, hc, hemitted, rfl⟩
    exact ⟨List.mem_of_getElem? (h.getElem?_toList hc), hemitted⟩

theorem emitted_ascending (h : v.Lays code l) : l.emitted.Pairwise fun a b => a.2 < b.2 := by
  unfold Layout.emitted
  rw [List.pairwise_filter, List.pairwise_iff_getElem]
  intro j k hj hk hjk hemitted _
  have hget : ∀ n (hn : n < l.toList.length), ∃ c, l.expansion.copies[n]? = some c ∧ l.toList[n] = (c, l.startOf n) := by
    intro n hn
    have hsize : n < l.expansion.copies.size := by
      unfold Layout.toList at hn
      rw [List.length_zip, Array.length_toList] at hn
      omega
    have hc := Array.getElem?_eq_getElem hsize
    refine ⟨_, hc, ?_⟩
    have hplaced := h.getElem?_toList hc
    rw [List.getElem?_eq_getElem hn] at hplaced
    exact Option.some.inj hplaced
  obtain ⟨c, hc, hj'⟩ := hget j hj
  obtain ⟨c', hc', hk'⟩ := hget k hk
  rw [hj'] at hemitted ⊢
  rw [hk']
  exact h.startOf_lt hc hemitted hjk (Nat.le_of_lt (Array.getElem?_eq_some_iff.mp hc').1)

/-- Of the copies that are emitted, the ranges hold exactly those that are to be covered. -/
theorem ranges_cover (h : v.Lays code l) (covered : Copy → Bool) (hc : l.expansion.copies[number]? = some c)
    (hemitted : c.isEmitted = true) :
    (∃ r ∈ l.ranges covered, r.1 ≤ l.startOf number ∧ l.startOf number < r.2) ↔ covered c = true := by
  have hmem : (l.startOf number, covered c) ∈ l.emitted.map fun placed => (placed.2, covered placed.1) :=
    List.mem_map.mpr ⟨(c, l.startOf number), h.mem_emitted_iff.mpr ⟨number, hc, hemitted, rfl⟩, rfl⟩
  have hascending : (l.emitted.map fun placed => (placed.2, covered placed.1)).Pairwise fun m m' => m.1 < m'.1 := by
    rw [List.pairwise_map]
    exact h.emitted_ascending
  have hstop : ∀ m ∈ l.emitted.map fun placed => (placed.2, covered placed.1), m.1 < l.size := by
    intro m hm
    obtain ⟨⟨c', position⟩, hplaced, rfl⟩ := List.mem_map.mp hm
    obtain ⟨n, hc', hemitted', rfl⟩ := h.mem_emitted_iff.mp hplaced
    exact h.startOf_lt_size hc' hemitted'
  rw [← @Layout.rangesFrom_covers l.size none _ hascending hstop (by simp) _ _ hmem]
  unfold Layout.ranges
  constructor
  · rintro ⟨r, hr, hinside⟩
    exact ⟨r, (List.mem_filter.mp hr).1, hinside⟩
  · rintro ⟨r, hr, hstart, hend⟩
    exact ⟨r, List.mem_filter.mpr ⟨hr, decide_eq_true (by omega)⟩, hstart, hend⟩

/-- A range begins at a copy that is to be covered, and ends at a copy or with the code. -/
theorem range_bounds (h : v.Lays code l) {covered : Copy → Bool} {r : Nat × Nat} (hr : r ∈ l.ranges covered) :
    r.1 < r.2 ∧ (∃ n c, l.expansion.copies[n]? = some c ∧ c.isEmitted = true ∧ covered c = true ∧ l.startOf n = r.1) ∧
      (r.2 = l.size ∨ ∃ n c, l.expansion.copies[n]? = some c ∧ c.isEmitted = true ∧ l.startOf n = r.2) := by
  have hcopy : ∀ m ∈ l.emitted.map fun placed => (placed.2, covered placed.1),
      ∃ n c, l.expansion.copies[n]? = some c ∧ c.isEmitted = true ∧ l.startOf n = m.1 := by
    intro m hm
    obtain ⟨⟨c, position⟩, hplaced, rfl⟩ := List.mem_map.mp hm
    obtain ⟨n, hc, hemitted, rfl⟩ := h.mem_emitted_iff.mp hplaced
    exact ⟨n, c, hc, hemitted, rfl⟩
  obtain ⟨hfrom, horder⟩ := List.mem_filter.mp hr
  have horder : r.1 < r.2 := by simpa using horder
  refine ⟨horder, ?_, ?_⟩
  · rcases Layout.rangesFrom_start hfrom with hopen | ⟨m, hm, hstart⟩
    · simp at hopen
    · obtain ⟨n, c, hc, hemitted, hposition⟩ := hcopy m hm
      have hposition := hposition.trans hstart
      exact ⟨n, c, hc, hemitted, (h.ranges_cover covered hc hemitted).mp ⟨r, hr, by omega, by omega⟩, hposition⟩
  · rcases Layout.rangesFrom_stop hfrom with hend | ⟨m, hm, hend⟩
    · exact Or.inl hend
    · obtain ⟨n, c, hc, hemitted, hposition⟩ := hcopy m hm
      exact Or.inr ⟨n, c, hc, hemitted, hposition.trans hend⟩

/-! ## Entries of the new table -/

/-- A new entry is an old one with the copy of its handler, over a range of the copies that it protects. -/
theorem mem_exceptionTable_iff (h : v.Lays code l) {table : List ExceptionHandler}
    (htable : ∀ e ∈ table, e.handlerPc.toNat < code.length) {new : ExceptionHandler} :
    new ∈ l.exceptionTable table ↔
      ∃ e ∈ table, ∃ m handler, l.expansion.copies[m]? = some handler ∧ handler.position = e.handlerPc.toNat ∧
        ∃ r ∈ l.ranges (Layout.protects e handler),
          new = ⟨UInt16.ofNat r.1, UInt16.ofNat r.2, UInt16.ofNat (l.startOf m), e.catchType⟩ := by
  unfold Layout.exceptionTable
  rw [List.mem_flatMap]
  refine exists_congr fun e => and_congr_right fun he => ?_
  unfold Layout.handlerEntries
  rw [List.mem_flatMap]
  refine exists_congr fun m => ?_
  rw [h.indexed _ m (htable e he)]
  constructor
  · rintro ⟨⟨handler, hhandler, hposition⟩, hnew⟩
    simp only [hhandler] at hnew
    obtain ⟨r, hr, rfl⟩ := List.mem_map.mp hnew
    rw [h.positionOf_eq hhandler]
    exact ⟨handler, hhandler, hposition, r, hr, rfl⟩
  · rintro ⟨handler, hhandler, hposition, r, hr, rfl⟩
    refine ⟨⟨handler, hhandler, hposition⟩, ?_⟩
    simp only [hhandler]
    rw [← h.positionOf_eq hhandler]
    exact List.mem_map.mpr ⟨r, hr, rfl⟩

/-- Positions in the new code fit into the entries. -/
theorem toNat_ofNat (h : v.Lays code l) {position : Nat} (hposition : position ≤ l.size) :
    (UInt16.ofNat position).toNat = position := by
  have hsize := h.size_le
  unfold Layout.maxCodeLength at hsize
  exact UInt16.toNat_ofNat_of_lt' (by show position < 65536; omega)

theorem protects_iff {e : ExceptionHandler} {m : Nat} {handler : Copy} (hhandler : l.expansion.copies[m]? = some handler)
    (hposition : handler.position = e.handlerPc.toNat) :
    Layout.protects e handler c = true ↔ e.startPc.toNat ≤ c.position ∧ c.position < e.endPc.toNat ∧
      l.expansion.Reaches e.handlerPc.toNat c.call m := by
  unfold Layout.protects Expansion.Reaches
  simp only [Bool.and_eq_true, decide_eq_true_eq, Call.canGoto_iff, and_assoc]
  refine and_congr_right fun _ => and_congr_right fun _ => ?_
  constructor
  · intro houter
    exact ⟨handler, hhandler, hposition, houter⟩
  · rintro ⟨handler', hhandler', -, houter⟩
    obtain rfl := Option.some.inj (hhandler.symm.trans hhandler')
    exact houter

section NewTable

variable {method : Method} {out : Code} {b : Body}

theorem indexOf?_startOf (h : v.Lays code l) (hemits : l.Emits bytes) (hb : b.Laid bytes)
    (hc : l.expansion.copies[number]? = some c) : (b.indexOf? (l.startOf number)).isSome ↔ l.startOf number < l.size := by
  constructor
  · intro hsome
    obtain ⟨index, hindex⟩ := Option.isSome_iff_exists.mp hsome
    obtain ⟨i, hi, hposition⟩ := hb.indexOf?_eq_some_iff.mp hindex
    rw [← hposition, ← hemits.length_eq]
    exact hb.position_lt_length hi
  · intro hlt
    obtain ⟨index, i, hi⟩ :=
      h.exists_instruction hemits hb (Nat.le_of_lt (Array.getElem?_eq_some_iff.mp hc).1) hlt
    exact Option.isSome_of_eq_some (hb.indexOf?_eq_some_iff.mpr ⟨i, hi⟩)

/-- A new entry is accepted exactly if the copy of its handler starts inside the code. -/
theorem resolveHandler_new (h : v.Lays code l) (hemits : l.Emits bytes) (hb : b.Laid bytes) {e : ExceptionHandler}
    {m : Nat} {handler : Copy} {covered : Copy → Bool} {r : Nat × Nat} {resolved : Handler}
    (hhandler : l.expansion.copies[m]? = some handler) (hr : r ∈ l.ranges covered) :
    Inference.resolveHandler { method with code := out } b
        ⟨UInt16.ofNat r.1, UInt16.ofNat r.2, UInt16.ofNat (l.startOf m), e.catchType⟩ = .ok resolved ↔
      l.startOf m < l.size ∧ ∃ type, method.Catches e type ∧ resolved = ⟨r.1, r.2, l.startOf m, type⟩ := by
  obtain ⟨horder, ⟨n, c, hc, hemitted, -, hstart⟩, hstop⟩ := h.range_bounds hr
  have hinside := h.startOf_lt_size hc hemitted
  have hend : r.2 ≤ l.size := by
    rcases hstop with heq | ⟨n', c', hc', hemitted', hend⟩
    · omega
    · have := h.startOf_lt_size hc' hemitted'
      omega
  have hm : l.startOf m ≤ l.size := by
    rw [← h.start_size]
    exact h.start_mono (Nat.le_of_lt (Array.getElem?_eq_some_iff.mp hhandler).1) (Nat.le_refl _)
  have hindexStart : (b.indexOf? r.1).isSome := by
    rw [← hstart]
    exact (h.indexOf?_startOf hemits hb hc).mpr hinside
  have hindexStop : (b.indexOf? r.2).isSome ∨ r.2 = b.codeLength := by
    rcases hstop with heq | ⟨n', c', hc', hemitted', hend'⟩
    · rw [hb.codeLength_eq, hemits.length_eq]
      exact Or.inr heq
    · rw [← hend']
      exact Or.inl ((h.indexOf?_startOf hemits hb hc').mpr (h.startOf_lt_size hc' hemitted'))
  rw [Inference.resolveHandler_eq_ok]
  simp only [h.toNat_ofNat (show r.1 ≤ l.size by omega), h.toNat_ofNat hend, h.toNat_ofNat hm,
    h.indexOf?_startOf hemits hb hhandler, hindexStart, hindexStop, horder, true_and]
  rfl

/-- The new table is accepted exactly if the copies of handlers that are caught at start inside the code. -/
theorem resolved_iff (h : v.Lays code l) (hemits : l.Emits bytes) (hb : b.Laid bytes)
    (htable : ∀ e ∈ method.code.exceptionTable, e.handlerPc.toNat < code.length ∧ ∃ type, method.Catches e type) :
    (∃ handlers, (l.exceptionTable method.code.exceptionTable).mapM
        (Inference.resolveHandler { method with code := out } b) = .ok handlers) ↔
      ∀ (number : Nat) (c : Copy) (type : VType) (m : Nat), l.expansion.copies[number]? = some c →
        c.isEmitted = true → l.Catches method c type m → l.startOf m < l.size := by
  have htargets : ∀ e ∈ method.code.exceptionTable, e.handlerPc.toNat < code.length := fun e he => (htable e he).1
  rw [exists_mapM_iff]
  constructor
  · rintro hall number c type m hc hemitted ⟨e, he, hstart, hstop, -, hreaches⟩
    obtain ⟨handler, hhandler, hposition, houter⟩ := id hreaches
    have hprotects := (protects_iff hhandler hposition).mpr ⟨hstart, hstop, hreaches⟩
    obtain ⟨r, hr, -⟩ := (h.ranges_cover _ hc hemitted).mpr hprotects
    obtain ⟨resolved, hresolve⟩ :=
      hall _ ((h.mem_exceptionTable_iff htargets).mpr ⟨e, he, m, handler, hhandler, hposition, r, hr, rfl⟩)
    exact ((h.resolveHandler_new hemits hb hhandler hr).mp hresolve).1
  · intro hinside new hnew
    obtain ⟨e, he, m, handler, hhandler, hposition, r, hr, rfl⟩ := (h.mem_exceptionTable_iff htargets).mp hnew
    obtain ⟨-, ⟨number, c, hc, hemitted, hcovered, -⟩, -⟩ := h.range_bounds hr
    obtain ⟨hstart, hstop, hreaches⟩ := (protects_iff hhandler hposition).mp hcovered
    obtain ⟨type, htype⟩ := (htable e he).2
    have hlt := hinside number c type m hc hemitted ⟨e, he, hstart, hstop, htype, hreaches⟩
    exact ⟨_, (h.resolveHandler_new hemits hb hhandler hr).mpr ⟨hlt, type, htype, rfl⟩⟩

/-- Around the instruction of a copy, what is caught around the copy is caught. -/
theorem handles_iff (h : v.Lays code l) (hemits : l.Emits bytes) (hb : b.Laid bytes)
    (htable : ∀ e ∈ method.code.exceptionTable, e.handlerPc.toNat < code.length ∧ ∃ type, method.Catches e type)
    {handlers : List Handler} (hhandlers : (l.exceptionTable method.code.exceptionTable).mapM
      (Inference.resolveHandler { method with code := out } b) = .ok handlers)
    (hc : l.expansion.copies[number]? = some c) (hemitted : c.isEmitted = true) {type : VType} {target : Nat} :
    (∃ handler ∈ handlers, handler.covers (l.startOf number) = true ∧ handler.catchType = type ∧
        handler.target = target) ↔
      ∃ m, l.Catches method c type m ∧ l.startOf m = target := by
  have htargets : ∀ e ∈ method.code.exceptionTable, e.handlerPc.toNat < code.length := fun e he => (htable e he).1
  have hinside := (h.resolved_iff hemits hb htable).mp ⟨handlers, hhandlers⟩
  simp only [mem_of_mapM hhandlers]
  constructor
  · rintro ⟨resolved, ⟨new, hnew, hresolve⟩, hcovers, rfl, rfl⟩
    obtain ⟨e, he, m, handler, hhandler, hposition, r, hr, rfl⟩ := (h.mem_exceptionTable_iff htargets).mp hnew
    obtain ⟨-, type, htype, rfl⟩ := (h.resolveHandler_new hemits hb hhandler hr).mp hresolve
    have hrange : r.1 ≤ l.startOf number ∧ l.startOf number < r.2 := by
      simpa [Handler.covers] using hcovers
    have hprotects := (h.ranges_cover _ hc hemitted).mp ⟨r, hr, hrange⟩
    obtain ⟨hstart, hstop, hreaches⟩ := (protects_iff hhandler hposition).mp hprotects
    exact ⟨m, ⟨e, he, hstart, hstop, htype, hreaches⟩, rfl⟩
  · rintro ⟨m, ⟨e, he, hstart, hstop, htype, hreaches⟩, rfl⟩
    obtain ⟨handler, hhandler, hposition, houter⟩ := id hreaches
    have hprotects := (protects_iff hhandler hposition).mpr ⟨hstart, hstop, hreaches⟩
    obtain ⟨r, hr, hrange⟩ := (h.ranges_cover _ hc hemitted).mpr hprotects
    have hlt := hinside number c type m hc hemitted ⟨e, he, hstart, hstop, htype, hreaches⟩
    have hnew := (h.mem_exceptionTable_iff htargets).mpr ⟨e, he, m, handler, hhandler, hposition, r, hr, rfl⟩
    refine ⟨⟨r.1, r.2, l.startOf m, type⟩, ⟨_, hnew, ?_⟩, ?_, rfl, rfl⟩
    · exact (h.resolveHandler_new hemits hb hhandler hr).mpr ⟨hlt, type, htype, rfl⟩
    · simpa [Handler.covers] using hrange

end NewTable

end Verified.Lays

end Bytecode
