import Bytecode.Proofs.RoundTrip

/-!
# Lookups after any edits

A tiling stores offsets and finds them by bisection.  What it should answer is said with the elements alone: their
offsets are running sums of widths (`Tiling.offsetAt`), and an offset is looked up by going through them one after the
other (`Tiling.scan`).

* `Tiling.Edit`: the changes of a tiling, beside the same changes of a list;
* `Tiling.Edit.run_ofList`: one edit of elements laid end to end lays the edited elements end to end, hence so does any
  sequence of edits;
* `Tiling.Places`: stored offsets are the sums, and lookups agree with the scan; it holds of every tiling whose
  elements have a width and whose offsets fit into a word (`Tiling.Stored.places`);
* `Tiling.located_after_edits`: both together.

Offsets are words, and past the greatest one they start over: `Tiling.offsets_start_over`.
-/

namespace Bytecode

namespace Tiling

variable {α : Type} [Width α]

variable {start index offset : Nat} {as : List α} {a : α}

/-! ## Offsets without storing them -/

/-- Offset of the element with an index, when elements are laid end to end. -/
def offsetAt (start : Nat) (as : List α) (index : Nat) : Nat := start + ((as.take index).map width).sum

/-- Go through elements that lie end to end from a position on, the first of which has an index. -/
def scanFrom (offset : Nat) : (index position : Nat) → List α → Located α
  | _, _, [] => .beyond
  | index, position, a :: as =>
    if offset = position then .found index a
    else if offset < position + width a then .inside index
    else scanFrom offset (index + 1) (position + width a) as

/-- Look up an offset by going through all elements. -/
def scan (start : Nat) (as : List α) (offset : Nat) : Located α :=
  if offset < start then .before else scanFrom offset 0 start as

@[simp] theorem offsetAt_zero (start : Nat) (as : List α) : offsetAt start as 0 = start := by
  simp [offsetAt]

theorem le_offsetAt (start : Nat) (as : List α) (index : Nat) : start ≤ offsetAt start as index :=
  Nat.le_add_right _ _

theorem offsetAt_succ (h : as[index]? = some a) :
    offsetAt start as (index + 1) = offsetAt start as index + width a := by
  simp [offsetAt, List.take_add_one, h, Nat.add_assoc]

theorem offsetAt_append (h : index ≤ as.length) (bs : List α) :
    offsetAt start (as ++ bs) index = offsetAt start as index := by
  rw [offsetAt, List.take_append_of_le_length h, offsetAt]

theorem offsetAt_length (start : Nat) (as : List α) : offsetAt start as as.length = start + (as.map width).sum := by
  rw [offsetAt, List.take_length]

theorem offsetAt_mono (start : Nat) (as : List α) {i j : Nat} (h : i ≤ j) :
    offsetAt start as i ≤ offsetAt start as j := by
  obtain ⟨k, rfl⟩ := Nat.exists_eq_add_of_le h
  rw [offsetAt, offsetAt, List.take_add, List.map_append, List.sum_append]
  omega

/-- An element ends before the next one starts. -/
theorem offsetAt_add_width_le {i j : Nat} (hij : i < j) (ha : as[i]? = some a) :
    offsetAt start as i + width a ≤ offsetAt start as j := by
  rw [← offsetAt_succ ha]
  exact offsetAt_mono start as hij

/-- No offset lies in two elements. -/
theorem index_unique {i j : Nat} {b : α} (ha : as[i]? = some a) (hb : as[j]? = some b)
    (hia : offsetAt start as i ≤ offset) (hai : offset < offsetAt start as i + width a)
    (hjb : offsetAt start as j ≤ offset) (hbj : offset < offsetAt start as j + width b) : i = j := by
  rcases Nat.lt_trichotomy i j with hlt | heq | hgt
  · have hle : offsetAt start as i + width a ≤ offsetAt start as j := offsetAt_add_width_le hlt ha
    omega
  · exact heq
  · have hle : offsetAt start as j + width b ≤ offsetAt start as i := offsetAt_add_width_le hgt hb
    omega

/-! ## Elements laid end to end -/

theorem ofList_concat (start : Nat) (as : List α) (a : α) : ofList start (as ++ [a]) = (ofList start as).push a := by
  rw [ofList, append, List.foldl_append]
  rfl

@[simp] theorem items_ofList (start : Nat) (as : List α) : (ofList start as).items = as := by
  induction as using List.reverseRecOn with
  | nil => rfl
  | append_singleton as a ih => rw [ofList_concat, items_push, ih]

@[simp] theorem start_ofList (start : Nat) (as : List α) : (ofList start as).start = start := by
  induction as using List.reverseRecOn with
  | nil => rfl
  | append_singleton as a ih =>
    rw [ofList_concat]
    exact ih

theorem size_ofList (start : Nat) (as : List α) : (ofList start as).size = as.length := by
  have hitems := congrArg List.length (items_ofList start as)
  rwa [items, List.length_map, Array.length_toList] at hitems

/-- Offsets are the sums of widths, as far as a word can hold them. -/
theorem offsets_ofList (hstart : start < 2 ^ 64) (as : List α) :
    (ofList start as).stop = Word.wrap (offsetAt start as as.length) ∧
      ∀ index, (ofList start as).get? index = as[index]?.map fun a => (Word.wrap (offsetAt start as index), a) := by
  -- elements are laid at the end, so the induction takes them off there
  induction as using List.reverseRecOn with
  | nil =>
    refine ⟨?_, fun index => rfl⟩
    rw [offsetAt_length, Word.wrap_of_lt]
    · rfl
    · simpa using hstart
  | append_singleton as a ih =>
    obtain ⟨hstop, hget⟩ := ih
    have hsize : (ofList start as).tiles.size = as.length := size_ofList start as
    rw [ofList_concat]
    refine ⟨?_, fun index => ?_⟩
    · have hlast : (as ++ [a])[as.length]? = some a := by simp
      rw [List.length_append, List.length_singleton, offsetAt_succ hlast, offsetAt_append (Nat.le_refl _)]
      unfold push
      rw [hstop]
      unfold Word.wrap
      rw [Nat.mod_add_mod]
    · unfold get? push
      rw [Array.getElem?_push, hsize]
      rcases Nat.lt_trichotomy index as.length with hlt | rfl | hgt
      · rw [if_neg (Nat.ne_of_lt hlt), offsetAt_append (Nat.le_of_lt hlt), List.getElem?_append_left hlt]
        exact hget index
      · rw [if_pos rfl, hstop, offsetAt_append (Nat.le_refl _)]
        simp
      · have hnone : (as ++ [a])[index]? = none := by
          rw [List.getElem?_eq_none_iff, List.length_append, List.length_singleton]
          omega
        have hnone' : (ofList start as).tiles[index]? = none := by
          rw [Array.getElem?_eq_none_iff, hsize]
          omega
        rw [if_neg (Nat.ne_of_gt hgt), hnone, hnone']
        rfl

/-- Elements are stored at the sums of the widths in front of them. -/
structure Stored (t : Tiling α) (start : Nat) (as : List α) : Prop where
  start_eq : t.start = start
  get?_eq : ∀ index, t.get? index = as[index]?.map fun a => (offsetAt start as index, a)
  stop_eq : t.stop = offsetAt start as as.length

/-- As long as offsets fit into a word, nothing is lost of them. -/
theorem stored_ofList (hfits : start + (as.map width).sum < 2 ^ 64) : (ofList start as).Stored start as := by
  rw [← offsetAt_length] at hfits
  have hle : ∀ index ≤ as.length, offsetAt start as index < 2 ^ 64 := fun index hindex =>
    Nat.lt_of_le_of_lt (offsetAt_mono start as hindex) hfits
  have hstart := hle 0 (Nat.zero_le _)
  rw [offsetAt_zero] at hstart
  obtain ⟨hstop, hget⟩ := offsets_ofList hstart as
  refine ⟨start_ofList start as, fun index => ?_, ?_⟩
  · rw [hget]
    refine Option.map_congr fun a ha => ?_
    rw [Word.wrap_of_lt (hle index (Nat.le_of_lt (List.getElem?_eq_some_iff.mp ha).1))]
  · rw [hstop, Word.wrap_of_lt hfits]

/-! ## Lookups -/

/-- Elements are stored at their sums, and looking up an offset says where among them it is: this is what going through
them says. -/
structure Places (t : Tiling α) (start : Nat) (as : List α) : Prop extends Stored t start as where
  before_iff : ∀ offset, t.locate offset = .before ↔ offset < start
  beyond_iff : ∀ offset, t.locate offset = .beyond ↔ t.stop ≤ offset
  found_iff : ∀ offset index a,
    t.locate offset = .found index a ↔ as[index]? = some a ∧ offset = offsetAt start as index
  inside_iff : ∀ offset index, t.locate offset = .inside index ↔
    ∃ a, as[index]? = some a ∧ offsetAt start as index < offset ∧ offset < offsetAt start as index + width a
  locate_eq : ∀ offset, t.locate offset = scan start as offset

namespace Stored

variable {t : Tiling α} {start : Nat} {as : List α}

theorem getElem?_tiles (h : t.Stored start as) {tile : Nat × α} :
    t.tiles[index]? = some tile ↔ as[index]? = some tile.2 ∧ tile.1 = offsetAt start as index := by
  have hget : t.tiles[index]? = as[index]?.map fun a => (offsetAt start as index, a) := h.get?_eq index
  obtain ⟨offset, a⟩ := tile
  rw [hget, Option.map_eq_some_iff]
  constructor
  · rintro ⟨b, hb, heq⟩
    obtain ⟨rfl, rfl⟩ := Prod.mk.inj heq
    exact ⟨hb, rfl⟩
  · rintro ⟨ha, rfl⟩
    exact ⟨a, ha, rfl⟩

/-- Stored offsets ascend if every element has a width. -/
theorem ascending (h : t.Stored start as) (hwidth : ∀ a ∈ as, 1 ≤ width a) : Ascending t.tiles := by
  intro j k p q hjk hp hq
  obtain ⟨ha, hp⟩ := h.getElem?_tiles.mp hp
  obtain ⟨-, hq⟩ := h.getElem?_tiles.mp hq
  have hle : offsetAt start as j + width p.2 ≤ offsetAt start as k := offsetAt_add_width_le hjk ha
  have hpos := hwidth p.2 (List.mem_of_getElem? ha)
  omega

theorem locate_eq_found (h : t.Stored start as) (hwidth : ∀ a ∈ as, 1 ≤ width a) :
    t.locate offset = .found index a ↔ as[index]? = some a ∧ offset = offsetAt start as index := by
  have hle : ∀ (j : Nat) (tile : Nat × α), t.tiles[j]? = some tile → t.start ≤ tile.1 := by
    intro j tile htile
    rw [h.start_eq, (h.getElem?_tiles.mp htile).2]
    exact le_offsetAt start as j
  rw [locate_eq_found_iff (h.ascending hwidth) hle, h.getElem?_tiles]

theorem locate_eq_before (h : t.Stored start as) : t.locate offset = .before ↔ offset < start := by
  rw [← h.start_eq]
  unfold locate
  constructor
  · intro hlocate
    split at hlocate
    · assumption
    · simp only at hlocate
      split at hlocate
      · simp at hlocate
      · split at hlocate
        · simp at hlocate
        · split at hlocate <;> simp at hlocate
  · intro hlt
    rw [if_pos hlt]

theorem size_eq (h : t.Stored start as) : t.tiles.size = as.length := by
  have hnone : ∀ index, t.tiles.size ≤ index ↔ as.length ≤ index := by
    intro index
    have hget : t.tiles[index]? = as[index]?.map fun a => (offsetAt start as index, a) := h.get?_eq index
    rw [← Array.getElem?_eq_none_iff, ← List.getElem?_eq_none_iff, hget, Option.map_eq_none_iff]
  exact Nat.le_antisymm ((hnone _).mpr (Nat.le_refl _)) ((hnone _).mp (Nat.le_refl _))

/-- At any other offset bisection ends at the element that the offset is inside of, unless it is beyond all of them. -/
theorem locate_of_miss (h : t.Stored start as) (hwidth : ∀ a ∈ as, 1 ≤ width a) (hstart : start ≤ offset)
    (hmiss : ∀ index a, as[index]? = some a → offset ≠ offsetAt start as index) :
    t.locate offset = .beyond ∧ t.stop ≤ offset ∨
      ∃ index a, t.locate offset = .inside index ∧ as[index]? = some a ∧
        offsetAt start as index < offset ∧ offset < offsetAt start as index + width a := by
  have hnot : ¬ offset < t.start := by
    rw [h.start_eq]
    omega
  unfold locate
  rw [if_neg hnot]
  dsimp only
  have hfirst : ∀ tile, t.tiles[0]? = some tile → tile.1 ≤ offset := by
    intro tile htile
    rw [(h.getElem?_tiles.mp htile).2, offsetAt_zero]
    exact hstart
  have hbehind := @lastUpTo_not_behind _ t.tiles offset 0 t.tiles.size hfirst
  have hbounds := @lastUpTo_bounds _ t.tiles (h.ascending hwidth) offset 0 t.tiles.size
  generalize lastUpTo t.tiles offset 0 t.tiles.size = index at hbehind hbounds ⊢
  cases htile : t.tiles[index]? with
  | none =>
    -- there is no element at all
    have hempty : t.tiles.size = 0 := by
      have hge := Array.getElem?_eq_none_iff.mp htile
      rcases Nat.eq_zero_or_pos t.tiles.size with hzero | hpos
      · exact hzero
      · have hlt := (hbounds hpos).2.1
        omega
    refine .inl ⟨rfl, ?_⟩
    rw [h.stop_eq, ← h.size_eq, hempty, offsetAt_zero]
    exact hstart
  | some tile =>
    obtain ⟨found, a⟩ := tile
    obtain ⟨ha, hfound⟩ := h.getElem?_tiles.mp htile
    have hle := hbehind _ htile
    have hne := hmiss index a ha
    dsimp only at hfound hle ⊢
    rw [if_neg (by omega)]
    by_cases hstop : t.stop ≤ offset
    · rw [if_pos hstop]
      exact .inl ⟨rfl, hstop⟩
    · rw [if_neg hstop]
      refine .inr ⟨index, a, rfl, ha, by omega, ?_⟩
      -- the element ends where the next one starts, or where all end
      rw [← offsetAt_succ ha]
      cases hnext : as[index + 1]? with
      | some b =>
        have hlt := (List.getElem?_eq_some_iff.mp hnext).1
        have hpast := (hbounds (by rw [h.size_eq]; omega)).2.2
        exact hpast (index + 1) (_, b) (Nat.lt_succ_self index) (by rw [h.size_eq]; omega)
          (h.getElem?_tiles.mpr ⟨hnext, rfl⟩)
      | none =>
        have hlt := (List.getElem?_eq_some_iff.mp ha).1
        have hge := List.getElem?_eq_none_iff.mp hnext
        rw [show index + 1 = as.length by omega, ← h.stop_eq]
        omega

/-- What a lookup can say, and when it does. -/
theorem locate_cases (h : t.Stored start as) (hwidth : ∀ a ∈ as, 1 ≤ width a) (offset : Nat) :
    t.locate offset = .before ∧ offset < start ∨ t.locate offset = .beyond ∧ t.stop ≤ offset ∨
      ∃ index a, as[index]? = some a ∧
        (t.locate offset = .found index a ∧ offset = offsetAt start as index ∨
          t.locate offset = .inside index ∧ offsetAt start as index < offset ∧
            offset < offsetAt start as index + width a) := by
  rcases Nat.lt_or_ge offset start with hbefore | hstart
  · exact .inl ⟨h.locate_eq_before.mpr hbefore, hbefore⟩
  · by_cases hfound : ∃ index a, as[index]? = some a ∧ offset = offsetAt start as index
    · obtain ⟨index, a, ha, hoffset⟩ := hfound
      exact .inr (.inr ⟨index, a, ha, .inl ⟨(h.locate_eq_found hwidth).mpr ⟨ha, hoffset⟩, hoffset⟩⟩)
    · have hmiss : ∀ index a, as[index]? = some a → offset ≠ offsetAt start as index :=
        fun index a ha hoffset => hfound ⟨index, a, ha, hoffset⟩
      rcases h.locate_of_miss hwidth hstart hmiss with hbeyond | ⟨index, a, hinside, ha, hbounds⟩
      · exact .inr (.inl hbeyond)
      · exact .inr (.inr ⟨index, a, ha, .inr ⟨hinside, hbounds⟩⟩)

/-- Every element ends at or before the end of all. -/
theorem offsetAt_add_width_le_stop (h : t.Stored start as) (ha : as[index]? = some a) :
    offsetAt start as index + width a ≤ t.stop := by
  rw [h.stop_eq]
  exact offsetAt_add_width_le (List.getElem?_eq_some_iff.mp ha).1 ha

theorem locate_eq_beyond (h : t.Stored start as) (hwidth : ∀ a ∈ as, 1 ≤ width a) :
    t.locate offset = .beyond ↔ t.stop ≤ offset := by
  have hstart : start ≤ t.stop := h.stop_eq ▸ le_offsetAt start as as.length
  rcases h.locate_cases hwidth offset with ⟨heq, hlt⟩ | ⟨heq, hle⟩ | ⟨index, a, ha, ⟨heq, hoffset⟩ | ⟨heq, -, hlt⟩⟩
  · simp only [heq, reduceCtorEq, false_iff]
    omega
  · simp only [heq, hle]
  · have hpos := hwidth a (List.mem_of_getElem? ha)
    have hend := h.offsetAt_add_width_le_stop ha
    simp only [heq, reduceCtorEq, false_iff]
    omega
  · have hend := h.offsetAt_add_width_le_stop ha
    simp only [heq, reduceCtorEq, false_iff]
    omega

theorem locate_eq_inside (h : t.Stored start as) (hwidth : ∀ a ∈ as, 1 ≤ width a) : t.locate offset = .inside index ↔
      ∃ a, as[index]? = some a ∧ offsetAt start as index < offset ∧ offset < offsetAt start as index + width a := by
  constructor
  · intro hlocate
    rcases h.locate_cases hwidth offset with ⟨heq, -⟩ | ⟨heq, -⟩ | ⟨index', a, ha, ⟨heq, -⟩ | ⟨heq, hbounds⟩⟩
    · exact absurd (hlocate.symm.trans heq) (by simp)
    · exact absurd (hlocate.symm.trans heq) (by simp)
    · exact absurd (hlocate.symm.trans heq) (by simp)
    · obtain rfl := Located.inside.inj (hlocate.symm.trans heq)
      exact ⟨a, ha, hbounds⟩
  · rintro ⟨a, ha, hlow, hhigh⟩
    have hstart := le_offsetAt start as index
    have hend := h.offsetAt_add_width_le_stop ha
    rcases h.locate_cases hwidth offset with ⟨-, hlt⟩ | ⟨-, hle⟩ | ⟨index', b, hb, ⟨-, rfl⟩ | ⟨heq, hlow', hhigh'⟩⟩
    · omega
    · omega
    · have hpos := hwidth b (List.mem_of_getElem? hb)
      obtain rfl := index_unique ha hb (Nat.le_of_lt hlow) hhigh (Nat.le_refl _) (by omega)
      omega
    · obtain rfl := index_unique ha hb (Nat.le_of_lt hlow) hhigh (Nat.le_of_lt hlow') hhigh'
      exact heq

/-- From any element on that is not behind the offset, going through the elements ends where bisection does. -/
theorem scanFrom_eq (h : t.Stored start as) (hwidth : ∀ a ∈ as, 1 ≤ width a) {rest : List α}
    (hrest : rest = as.drop index) (hle : offsetAt start as index ≤ offset) :
    scanFrom offset index (offsetAt start as index) rest = t.locate offset := by
  induction rest generalizing index with
  | nil =>
    have hend := List.drop_eq_nil_iff.mp hrest.symm
    have hstop : t.stop ≤ offset := by
      rw [h.stop_eq]
      exact Nat.le_trans (offsetAt_mono start as hend) hle
    exact ((h.locate_eq_beyond hwidth).mpr hstop).symm
  | cons a rest ih =>
    have ha : as[index]? = some a := by
      have hhead := congrArg List.head? hrest
      rw [List.head?_drop] at hhead
      exact hhead.symm
    have htail : rest = as.drop (index + 1) := by
      rw [← List.tail_drop, ← hrest, List.tail_cons]
    rw [scanFrom]
    split
    · rename_i hfound
      exact ((h.locate_eq_found hwidth).mpr ⟨ha, hfound⟩).symm
    · split
      · rename_i hne hlt
        exact ((h.locate_eq_inside hwidth).mpr ⟨a, ha, by omega, hlt⟩).symm
      · rename_i hne hge
        rw [← offsetAt_succ ha]
        refine ih htail ?_
        rw [offsetAt_succ ha]
        omega

/-- Lookups agree with going through the elements. -/
theorem places (h : t.Stored start as) (hwidth : ∀ a ∈ as, 1 ≤ width a) : t.Places start as where
  toStored := h
  before_iff offset := h.locate_eq_before
  beyond_iff offset := h.locate_eq_beyond hwidth
  found_iff offset index a := h.locate_eq_found hwidth
  inside_iff offset index := h.locate_eq_inside hwidth
  locate_eq offset := by
    unfold scan
    split
    · rename_i hbefore
      exact h.locate_eq_before.mpr hbefore
    · rename_i hstart
      rw [← offsetAt_zero start as]
      refine (h.scanFrom_eq hwidth rfl ?_).symm
      rw [offsetAt_zero]
      omega

end Stored

/-! ## Edits -/

/-- A change of a tiling. -/
inductive Edit (α : Type) where
  | push (a : α)
  | append (as : List α)
  | pop
  | clear
  | map (f : α → α)

namespace Edit

/-- Change a tiling; there is nothing to take off when there is no element. -/
def run : Edit α → Tiling α → Tiling α
  | .push a, t => t.push a
  | .append as, t => t.append as
  | .pop, t => (t.pop?.map Prod.snd).getD t
  | .clear, t => t.clear
  | .map f, t => t.map f

/-- The same change of the elements alone. -/
def onItems : Edit α → List α → List α
  | .push a, as => as ++ [a]
  | .append bs, as => as ++ bs
  | .pop, as => as.dropLast
  | .clear, _ => []
  | .map f, as => as.map f

/-- The tiling after some edits, from the one with no element. -/
def result (start : Nat) (edits : List (Edit α)) : Tiling α := edits.foldl (fun t edit => edit.run t) (empty start)

/-- The elements after some edits, from none. -/
def items (edits : List (Edit α)) : List α := edits.foldl (fun as edit => edit.onItems as) []

/-- An edit of elements laid end to end lays the edited elements end to end. -/
theorem run_ofList (edit : Edit α) (start : Nat) (as : List α) :
    edit.run (ofList start as) = ofList start (edit.onItems as) := by
  cases edit with
  | push a => exact (ofList_concat start as a).symm
  | append bs =>
    show (ofList start as).append bs = ofList start (as ++ bs)
    rw [ofList, ofList, Tiling.append, Tiling.append, Tiling.append, List.foldl_append]
  | pop =>
    rcases List.eq_nil_or_concat as with rfl | ⟨front, last, rfl⟩
    · rfl
    · rw [List.concat_eq_append, ofList_concat, run, pop?_push, onItems, List.dropLast_concat]
      rfl
  | clear =>
    show empty (ofList start as).start = empty start
    rw [start_ofList]
  | map f =>
    show ofList (ofList start as).start ((ofList start as).items.map f) = ofList start (as.map f)
    rw [start_ofList, items_ofList]

/-- After any edits, the edited elements lie end to end. -/
theorem result_eq (start : Nat) (edits : List (Edit α)) : result start edits = ofList start (items edits) := by
  have hfold : ∀ as : List α, edits.foldl (fun t edit => edit.run t) (ofList start as) =
      ofList start (edits.foldl (fun as edit => edit.onItems as) as) := by
    induction edits with
    | nil => exact fun as => rfl
    | cons edit edits ih =>
      intro as
      rw [List.foldl_cons, List.foldl_cons, run_ofList, ih]
  exact hfold []

end Edit

/-- After any edits the elements are those of the edited list.  Their offsets are the sums of widths as far as a word
can hold them; where it can, lookups agree with going through the elements.  An element that was just laid is taken off
again with nothing else changed. -/
theorem located_after_edits (hwidth : ∀ a : α, 1 ≤ width a) (hstart : start < 2 ^ 64) (edits : List (Edit α)) :
    let t := Edit.result start edits
    let as := Edit.items edits
    t.items = as ∧ t.stop = Word.wrap (start + (as.map width).sum) ∧
      (∀ index, t.get? index = as[index]?.map fun a => (Word.wrap (offsetAt start as index), a)) ∧
      (start + (as.map width).sum < 2 ^ 64 → t.Places start as) ∧
      ∀ a, (t.push a).pop? = some ((t.stop, t.size, a), t) := by
  intro t as
  have ht : t = ofList start as := Edit.result_eq start edits
  obtain ⟨hstop, hget⟩ := offsets_ofList hstart as
  rw [← ht, offsetAt_length] at hstop
  rw [← ht] at hget
  refine ⟨?_, hstop, hget, fun hfits => ?_, fun a => pop?_push t a⟩
  · rw [ht, items_ofList]
  · rw [ht]
    exact (stored_ofList hfits).places fun a _ => hwidth a

/-- Edits of all kinds, with elements of both widths. -/
theorem located_after_edits_of_bases :
    (Edit.result 1 [.append [BaseType.int, .long, .byte], .push .double, .pop, .map fun _ => .long, .pop,
      .push .int]).Places 1 [.long, .long, .int] :=
  (located_after_edits (fun a => by cases a <;> decide) (by decide)
    [.append [BaseType.int, .long, .byte], .push .double, .pop, .map fun _ => .long, .pop, .push .int]).2.2.2.1
    (by decide)

/-- An element that reaches past the greatest offset ends at a small one. -/
theorem offsets_start_over :
    ¬ ∀ (start : Nat) (edits : List (Edit BaseType)), start < 2 ^ 64 →
      (Edit.result start edits).Places start (Edit.items edits) := by
  intro h
  have hstop := (h (2 ^ 64 - 2) [.push .long] (by decide)).stop_eq
  exact absurd hstop (by decide)

end Tiling

end Bytecode
