import Bytecode.Proofs.Decoding

/-!
# Decoded bodies tile their code

The instructions of a decoded body lie end to end from position zero to the end of the code, so an index and
the position of an instruction determine each other.

* `Tiling.locate_eq_found_iff`: bisection finds exactly the tiles that are there, when their offsets ascend;
* `Body.Laid` and `Body.Tiles` collect what is known of a decoded body, and `Body.decode_tiles` proves it;
* `Body.decode_of_scan`: code that can be scanned is decoded, if every position that is named starts an instruction.

Offsets are words, so the code has to be short enough to be addressed by them.
-/

namespace Bytecode

namespace Tiling

variable {α : Type}

/-- Later tiles have greater offsets. -/
def Ascending (tiles : Array (Nat × α)) : Prop :=
  ∀ (j k : Nat) (a b : Nat × α), j < k → tiles[j]? = some a → tiles[k]? = some b → a.1 < b.1

/-- Bisection stays inside its range, and all tiles of the range past its result are behind the offset. -/
theorem lastUpTo_bounds {tiles : Array (Nat × α)} (hasc : Ascending tiles) {offset first count : Nat}
    (hcount : 0 < count) :
    first ≤ lastUpTo tiles offset first count ∧ lastUpTo tiles offset first count < first + count ∧
      ∀ j tile, lastUpTo tiles offset first count < j → j < first + count → tiles[j]? = some tile →
        offset < tile.1 := by
  fun_induction lastUpTo tiles offset first count with
  | case1 first count hmore middle isBehind ih =>
    have hmiddle : middle = first + count / 2 := rfl
    by_cases hbehind : isBehind = true
    · rw [dif_pos hbehind] at ih
      rw [if_pos hbehind]
      obtain ⟨hlow, hhigh, hpast⟩ := ih (by omega)
      refine ⟨hlow, by omega, ?_⟩
      intro j tile hj hend htile
      by_cases hhalf : j < first + (count - count / 2)
      · exact hpast j tile hj hhalf htile
      · have hall : tiles[middle]?.all (fun tile => offset < tile.1) = true := hbehind
        cases hmid : tiles[middle]? with
        | none =>
          have hsize := Array.getElem?_eq_none_iff.mp hmid
          have hlt := (Array.getElem?_eq_some_iff.mp htile).1
          omega
        | some tile' =>
          rw [hmid] at hall
          have hoffset : offset < tile'.1 := by simpa using hall
          rcases Nat.lt_or_eq_of_le (show middle ≤ j by omega) with hlt | heq
          · exact Nat.lt_trans hoffset (hasc middle j tile' tile hlt hmid htile)
          · rw [heq, htile] at hmid
            rw [Option.some.inj hmid]
            exact hoffset
    · rw [dif_neg hbehind] at ih
      rw [if_neg hbehind]
      obtain ⟨hlow, hhigh, hpast⟩ := ih (by omega)
      refine ⟨by omega, by omega, ?_⟩
      intro j tile hj hend htile
      exact hpast j tile hj (by omega) htile
  | case2 first count hone =>
    refine ⟨Nat.le_refl _, by omega, ?_⟩
    intro j tile hj hend
    omega

/-- If the first tile of the range is not behind the offset, neither is the result of bisection. -/
theorem lastUpTo_not_behind {tiles : Array (Nat × α)} {offset first count : Nat}
    (hfirst : ∀ tile, tiles[first]? = some tile → tile.1 ≤ offset) :
    ∀ tile, tiles[lastUpTo tiles offset first count]? = some tile → tile.1 ≤ offset := by
  fun_induction lastUpTo tiles offset first count with
  | case1 first count hmore middle isBehind ih =>
    by_cases hbehind : isBehind = true
    · rw [dif_pos hbehind] at ih
      rw [if_pos hbehind]
      exact ih hfirst
    · rw [dif_neg hbehind] at ih
      rw [if_neg hbehind]
      apply ih
      intro tile htile
      have hall : ¬ tiles[middle]?.all (fun tile => offset < tile.1) = true := hbehind
      rw [htile] at hall
      simpa using hall
  | case2 first count hone => exact hfirst

/-- Bisection finds an element exactly at the offset of its tile. -/
theorem locate_eq_found_iff {t : Tiling α} (hasc : Ascending t.tiles)
    (hstart : ∀ (j : Nat) (tile : Nat × α), t.tiles[j]? = some tile → t.start ≤ tile.1) {offset index : Nat} {a : α} :
    t.locate offset = .found index a ↔ t.tiles[index]? = some (offset, a) := by
  unfold locate
  constructor
  · intro h
    split at h
    · simp at h
    · simp only at h
      split at h
      · simp at h
      · rename_i found b htile
        split at h
        · rename_i hfound
          obtain ⟨rfl, rfl⟩ := Located.found.inj h
          rw [htile, hfound]
        · split at h <;> simp at h
  · intro h
    have hge : t.start ≤ offset := hstart index (offset, a) h
    have hlt : index < t.tiles.size := (Array.getElem?_eq_some_iff.mp h).1
    have hpos : 0 < t.tiles.size := by omega
    obtain ⟨-, hhigh, hpast⟩ := @lastUpTo_bounds _ _ hasc offset 0 _ hpos
    have hfirst : ∀ tile, t.tiles[0]? = some tile → tile.1 ≤ offset := by
      intro tile htile
      rcases Nat.eq_zero_or_pos index with rfl | hindex
      · rw [h] at htile
        exact Nat.le_of_eq (congrArg Prod.fst (Option.some.inj htile).symm)
      · exact Nat.le_of_lt (hasc 0 index tile (offset, a) hindex htile h)
    have hbehind := @lastUpTo_not_behind _ _ offset 0 t.tiles.size hfirst
    have hlast : lastUpTo t.tiles offset 0 t.tiles.size = index := by
      rcases Nat.lt_trichotomy (lastUpTo t.tiles offset 0 t.tiles.size) index with hless | heq | hmore
      · exact absurd (hpast index (offset, a) hless (by omega) h) (Nat.lt_irrefl offset)
      · exact heq
      · -- a later tile that is not behind the offset contradicts the ascending offsets
        cases hsome : t.tiles[lastUpTo t.tiles offset 0 t.tiles.size]? with
        | none =>
          have hsize := Array.getElem?_eq_none_iff.mp hsome
          omega
        | some tile =>
          have hup : offset < tile.1 := hasc index _ _ _ hmore h hsome
          have hdown : tile.1 ≤ offset := hbehind tile hsome
          omega
    rw [if_neg (Nat.not_lt.mpr hge)]
    simp only [hlast, h, if_true]

end Tiling

namespace Body

variable {i : Instruction} {j position : Nat} {code : List UInt8}

theorem getElem?_toList (b : Body) (index : Nat) : b.toList[index]? = b.get? index := by
  unfold toList Tiling.items get? Tiling.get?
  rw [List.getElem?_map, Array.getElem?_toList]

/-- A front of the instructions of some code, up to a position: each is decoded where it lies, and they lie end
to end from zero on. -/
structure Scanned (code : List UInt8) (front : Tiling Instruction) (position : Nat) : Prop where
  start_eq : front.start = 0
  stop_eq : front.stop = position
  inside : position ≤ code.length
  decoded : ∀ (j offset : Nat) (i : Instruction), front.tiles[j]? = some (offset, i) →
    offset = i.position ∧ i.Decodes code.length i.position (code.drop i.position)
  first : ∀ (offset : Nat) (i : Instruction), front.tiles[0]? = some (offset, i) → i.position = 0
  follows : ∀ (j offset offset' : Nat) (i i' : Instruction), front.tiles[j]? = some (offset, i) →
    front.tiles[j + 1]? = some (offset', i') → i'.position = i.next
  last : ∀ (offset : Nat) (i : Instruction), front.tiles.back? = some (offset, i) → i.next = position
  empty : front.tiles.size = 0 → position = 0

theorem scanned_empty (code : List UInt8) : Scanned code (Tiling.empty 0) 0 where
  start_eq := rfl
  stop_eq := rfl
  inside := Nat.zero_le _
  decoded := by simp [Tiling.empty]
  first := by simp [Tiling.empty]
  follows := by simp [Tiling.empty]
  last := by simp [Tiling.empty]
  empty := fun _ => rfl

/-- Laying the instruction decoded at the end of a front gives the next front. -/
theorem Scanned.push {front : Tiling Instruction} (hs : Scanned code front position) (hfits : code.length < 2 ^ 64)
    (hi : i.Decodes code.length position (code.drop position)) :
    Scanned code (front.push i) (position + i.size) := by
  have hposition : i.position = position := hi.position_eq
  have hsize : i.size ≤ (code.drop position).length := by
    apply hi.size_le
    rw [List.length_drop]
    have := hs.inside
    omega
  have hnext : position + i.size ≤ code.length := by
    rw [List.length_drop] at hsize
    have := hi.size_pos
    omega
  have htiles : (front.push i).tiles = front.tiles.push (position, i) := by
    rw [← hs.stop_eq]
    rfl
  have hget : ∀ (j : Nat) (tile : Nat × Instruction), (front.push i).tiles[j]? = some tile →
      front.tiles[j]? = some tile ∨ j = front.tiles.size ∧ tile = (position, i) := by
    intro j tile htile
    rw [htiles, Array.getElem?_push] at htile
    split at htile
    · rename_i hj
      exact Or.inr ⟨hj, (Option.some.inj htile).symm⟩
    · exact Or.inl htile
  refine ⟨hs.start_eq, ?_, hnext, ?_, ?_, ?_, ?_, ?_⟩
  · rw [Tiling.stop_push_of_lt, hs.stop_eq]
    · rfl
    · rw [hs.stop_eq]
      change position + i.size < 2 ^ 64
      omega
  · intro j offset i' htile
    rcases hget j _ htile with hold | ⟨-, hnew⟩
    · exact hs.decoded j offset i' hold
    · obtain ⟨rfl, rfl⟩ := Prod.mk.inj hnew
      refine ⟨hposition.symm, ?_⟩
      rw [hposition]
      exact hi
  · intro offset i' htile
    rcases hget 0 _ htile with hold | ⟨hzero, hnew⟩
    · exact hs.first offset i' hold
    · obtain ⟨-, rfl⟩ := Prod.mk.inj hnew
      rw [hposition]
      exact hs.empty hzero.symm
  · intro j offset offset' i₁ i₂ hfirst hsecond
    rcases hget (j + 1) _ hsecond with hold | ⟨hlast, hnew⟩
    · have hlt := (Array.getElem?_eq_some_iff.mp hold).1
      rcases hget j _ hfirst with hold' | ⟨hj, -⟩
      · exact hs.follows j offset offset' i₁ i₂ hold' hold
      · omega
    · obtain ⟨-, rfl⟩ := Prod.mk.inj hnew
      rcases hget j _ hfirst with hold' | ⟨hj, -⟩
      · rw [hposition]
        refine (hs.last offset i₁ ?_).symm
        rw [Array.back?_eq_getElem?, ← hlast]
        exact hold'
      · omega
  · intro offset i' hback
    rw [htiles, Array.back?_push] at hback
    obtain ⟨-, rfl⟩ := Prod.mk.inj (Option.some.inj hback)
    rw [Instruction.next, hposition]
  · intro hempty
    rw [htiles, Array.size_push] at hempty
    omega

theorem Scanned.scanOnto {front result : Tiling Instruction}
    {rest : List UInt8} (hs : Scanned code front position) (hfits : code.length < 2 ^ 64)
    (hrest : rest = code.drop position)
    (h : scanOnto code.length front position rest = (result, none)) :
    Scanned code result code.length := by
  fun_induction Body.scanOnto code.length front position rest with
  | case1 front position =>
    obtain ⟨rfl, -⟩ := Prod.mk.inj h
    have hend : position = code.length := by
      have := hs.inside
      have hdrop := List.drop_eq_nil_iff.mp hrest.symm
      omega
    rw [← hend]
    exact hs
  | case2 => simp at h
  | case3 front position opcode operands i hdecode ih =>
    rw [hrest] at hdecode
    have hi := Instruction.decodeFrom_eq_ok.mp hdecode
    refine ih (hs.push hfits hi) ?_ h
    have hpos := hi.size_pos
    have hdrop : operands = code.drop (position + 1) := by
      rw [← List.drop_drop, ← hrest]
      rfl
    rw [hdrop, List.drop_drop]
    congr 1
    omega

/-- The instructions of a body are those of some code, end to end. -/
structure Laid (code : List UInt8) (b : Body) : Prop where
  /-- The code can be addressed by words. -/
  fits : code.length < 2 ^ 64
  scanned : Scanned code b.instructions code.length

/-- What is known of the decoded body of some code. -/
structure Tiles (code : List UInt8) (b : Body) : Prop extends Laid code b where
  /-- Every position that an instruction names is the start of one. -/
  targets : ∀ (j : Nat) (i : Instruction), b.get? j = some i → ∀ t ∈ i.targets, (b.indexOf? t).isSome

/-- Scanning up to the end of the code lays its instructions end to end. -/
theorem laid_of_scan {instructions : Tiling Instruction} (hfits : code.length < 2 ^ 64)
    (hscan : scan code = (instructions, none)) : Laid code ⟨instructions⟩ :=
  ⟨hfits, (scanned_empty code).scanOnto hfits rfl hscan⟩

theorem decode_tiles {b : Body} (h : decode code = .ok b) (hfits : code.length < 2 ^ 64) : Tiles code b := by
  unfold decode at h
  split at h
  · simp at h
  · rename_i instructions hscan
    simp only at h
    split at h
    · simp at h
    · rename_i hstray
      obtain rfl := Except.ok.inj h
      refine ⟨laid_of_scan hfits hscan, ?_⟩
      intro j i hi t ht
      have hmem : i ∈ (⟨instructions⟩ : Body).toList := by
        unfold get? Tiling.get? at hi
        unfold toList Tiling.items
        obtain ⟨tile, htile, rfl⟩ := Option.map_eq_some_iff.mp hi
        exact List.mem_map_of_mem (Array.mem_of_getElem? htile).val
      unfold strayTarget? at hstray
      have hnone := List.findSome?_eq_none_iff.mp hstray i hmem
      cases hfind : i.targets.find? fun target => ((⟨instructions⟩ : Body).indexOf? target).isNone with
      | some target => simp [hfind] at hnone
      | none =>
        have hfound := List.find?_eq_none.mp hfind t ht
        rwa [Bool.not_eq_true, Option.isNone_eq_false_iff] at hfound

namespace Laid

variable {code : List UInt8} {b : Body}

theorem get?_eq_some_iff (h : Laid code b) : b.get? j = some i ↔ b.instructions.tiles[j]? = some (i.position, i) := by
  unfold Body.get? Tiling.get?
  rw [Option.map_eq_some_iff]
  constructor
  · rintro ⟨⟨offset, i'⟩, htile, rfl⟩
    rw [htile, (h.scanned.decoded j offset i' htile).1]
  · intro htile
    exact ⟨_, htile, rfl⟩

/-- Every instruction is decoded from the code from its position on. -/
theorem decodes (h : Laid code b) (hi : b.get? j = some i) : i.Decodes code.length i.position (code.drop i.position) :=
  (h.scanned.decoded j i.position i (h.get?_eq_some_iff.mp hi)).2

theorem position_zero (h : Laid code b) (hi : b.get? 0 = some i) : i.position = 0 :=
  h.scanned.first i.position i (h.get?_eq_some_iff.mp hi)

theorem position_succ (h : Laid code b) {i' : Instruction} (hi : b.get? j = some i)
    (hi' : b.get? (j + 1) = some i') : i'.position = i.next :=
  h.scanned.follows j _ _ i i' (h.get?_eq_some_iff.mp hi) (h.get?_eq_some_iff.mp hi')

theorem get?_isSome_iff : (b.get? j).isSome ↔ j < b.size := by
  unfold Body.get? Tiling.get? Body.size Tiling.size
  rw [Option.isSome_map, Option.isSome_iff_exists]
  constructor
  · rintro ⟨tile, htile⟩
    exact (Array.getElem?_eq_some_iff.mp htile).1
  · intro hlt
    exact ⟨_, Array.getElem?_eq_getElem hlt⟩

theorem codeLength_eq (h : Laid code b) : b.codeLength = code.length := h.scanned.stop_eq

/-- Later instructions have greater positions. -/
theorem position_lt (h : Laid code b) {j k : Nat} {i i' : Instruction} (hjk : j < k)
    (hi : b.get? j = some i) (hi' : b.get? k = some i') : i.position < i'.position := by
  induction k generalizing i' with
  | zero => omega
  | succ k ih =>
    cases hk : b.get? k with
    | none =>
      have hsize := get?_isSome_iff.mp (Option.isSome_of_eq_some hi')
      have hsome := (@get?_isSome_iff k b).mpr (by omega)
      rw [hk] at hsome
      simp at hsome
    | some before =>
      have hnext := h.position_succ hk hi'
      have hpos := (h.decodes hk).size_pos
      have hstep : before.position < i'.position := by
        rw [hnext]
        unfold Instruction.next
        omega
      rcases Nat.lt_or_eq_of_le (show j ≤ k by omega) with hlt | rfl
      · exact Nat.lt_trans (ih hlt hk) hstep
      · rw [hi] at hk
        rw [Option.some.inj hk]
        exact hstep

theorem next_le (h : Laid code b) (hi : b.get? j = some i) : i.next ≤ code.length := by
  have hdecodes := h.decodes hi
  have hpos := hdecodes.size_pos
  by_cases hinside : i.position ≤ code.length
  · have hsize := hdecodes.size_le (by rw [List.length_drop]; omega)
    rw [List.length_drop] at hsize
    unfold Instruction.next
    omega
  · -- past the end there is nothing to decode
    have hnil : code.drop i.position = [] := List.drop_eq_nil_of_le (by omega)
    rw [hnil] at hdecodes
    nomatch hdecodes

theorem position_lt_length (h : Laid code b) (hi : b.get? j = some i) : i.position < code.length := by
  have hnext := h.next_le hi
  have hpos := (h.decodes hi).size_pos
  unfold Instruction.next at hnext
  omega

/-- Behind the last instruction the code ends. -/
theorem next_eq_length (h : Laid code b) (hi : b.get? j = some i) (hlast : b.size ≤ j + 1) : i.next = code.length := by
  have hlt : j < b.size := get?_isSome_iff.mp (Option.isSome_of_eq_some hi)
  refine h.scanned.last i.position i ?_
  rw [Array.back?_eq_getElem?]
  have hj : b.instructions.tiles.size - 1 = j := by
    have hsize : b.size = b.instructions.tiles.size := rfl
    omega
  rw [hj]
  exact h.get?_eq_some_iff.mp hi

/-- An instruction is known by its position. -/
theorem index_eq (h : Laid code b) {k : Nat} {i' : Instruction} (hi : b.get? j = some i)
    (hi' : b.get? k = some i') (hposition : i.position = i'.position) : j = k := by
  rcases Nat.lt_trichotomy j k with hlt | heq | hgt
  · exact absurd hposition (Nat.ne_of_lt (h.position_lt hlt hi hi'))
  · exact heq
  · exact absurd hposition.symm (Nat.ne_of_lt (h.position_lt hgt hi' hi))

theorem ascending (h : Laid code b) : Tiling.Ascending b.instructions.tiles := by
  rintro j k ⟨offset, i⟩ ⟨offset', i'⟩ hjk hj hk
  obtain ⟨rfl, -⟩ := h.scanned.decoded j offset i hj
  obtain ⟨rfl, -⟩ := h.scanned.decoded k offset' i' hk
  exact h.position_lt hjk (h.get?_eq_some_iff.mpr hj) (h.get?_eq_some_iff.mpr hk)

theorem locate_eq_found_iff (h : Laid code b) {index : Nat} :
    b.instructions.locate position = .found index i ↔ b.get? index = some i ∧ i.position = position := by
  have hstart : ∀ (j : Nat) (tile : Nat × Instruction), b.instructions.tiles[j]? = some tile →
      b.instructions.start ≤ tile.1 := by
    intro j tile htile
    rw [h.scanned.start_eq]
    exact Nat.zero_le _
  rw [Tiling.locate_eq_found_iff h.ascending hstart, h.get?_eq_some_iff]
  constructor
  · intro htile
    obtain ⟨rfl, -⟩ := h.scanned.decoded index position i htile
    exact ⟨htile, rfl⟩
  · rintro ⟨htile, rfl⟩
    exact htile

theorem indexOf?_eq_some_iff (h : Laid code b) {index : Nat} :
    b.indexOf? position = some index ↔ ∃ i, b.get? index = some i ∧ i.position = position := by
  constructor
  · intro hindex
    unfold Body.indexOf? Located.index? at hindex
    split at hindex
    · rename_i found i hlocate
      obtain rfl := Option.some.inj hindex
      exact ⟨i, h.locate_eq_found_iff.mp hlocate⟩
    · simp at hindex
  · rintro ⟨i, hi⟩
    rw [Body.indexOf?, h.locate_eq_found_iff.mpr hi]
    rfl

theorem startingAt?_eq_some_iff (h : Laid code b) :
    b.startingAt? position = some i ↔ i.position = position ∧ ∃ index, b.get? index = some i := by
  constructor
  · intro hstart
    unfold Body.startingAt? Located.item? at hstart
    split at hstart
    · rename_i index found hlocate
      obtain rfl := Option.some.inj hstart
      obtain ⟨hget, hposition⟩ := h.locate_eq_found_iff.mp hlocate
      exact ⟨hposition, index, hget⟩
    · simp at hstart
  · rintro ⟨hposition, index, hget⟩
    rw [Body.startingAt?, h.locate_eq_found_iff.mpr ⟨hget, hposition⟩]
    rfl

end Laid

theorem exists_get? (b : Body) (j : Nat) (h : j < b.size) : ∃ i, b.get? j = some i :=
  Option.isSome_iff_exists.mp (Laid.get?_isSome_iff.mpr h)

/-- Every position that an instruction names is the start of one. -/
theorem Tiles.target_start {b : Body} (h : Tiles code b) {t : Nat}
    (hi : b.get? j = some i) (ht : t ∈ i.targets) : ∃ index i', b.get? index = some i' ∧ i'.position = t := by
  obtain ⟨index, hindex⟩ := Option.isSome_iff_exists.mp (h.targets j i hi t ht)
  obtain ⟨i', hi'⟩ := h.indexOf?_eq_some_iff.mp hindex
  exact ⟨index, i', hi'⟩

theorem decode_of_scan {instructions : Tiling Instruction} (hscan : scan code = (instructions, none))
    (htargets : ∀ (j : Nat) (i : Instruction), (⟨instructions⟩ : Body).get? j = some i →
      ∀ t ∈ i.targets, ((⟨instructions⟩ : Body).indexOf? t).isSome) :
    decode code = .ok ⟨instructions⟩ := by
  have hstray : (⟨instructions⟩ : Body).strayTarget? = none := by
    unfold strayTarget?
    rw [List.findSome?_eq_none_iff]
    intro i hi
    obtain ⟨j, hj⟩ := List.mem_iff_getElem?.mp hi
    rw [getElem?_toList] at hj
    have hfind : (i.targets.find? fun target => ((⟨instructions⟩ : Body).indexOf? target).isNone) = none := by
      rw [List.find?_eq_none]
      intro t ht
      rw [Bool.not_eq_true, Option.isNone_eq_false_iff]
      exact htargets j i hj t ht
    rw [hfind]
    rfl
  unfold decode
  simp only [hscan, hstray]

end Body

end Bytecode
