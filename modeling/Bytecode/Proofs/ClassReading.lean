import Bytecode.ClassFile.Basic
import Bytecode.Proofs.DecodedBody
import Bytecode.Proofs.Encoding
import Mathlib.Data.List.Induction

/-!
# What is read from class files

The constants of a class file are numbered from one in ascending order, and every number fits into an index.

* `ConstantPool.Numbered`: this property, which reading establishes (`ClassFile.numbered_of_ofBytes`);
* `ConstantPool.get?_eq_some_iff`: with it, a constant is found at its own number and nowhere else;
* `ConstantPool.internUtf8_of_utf8`: a text that is there is found again, and the pool stays as it is.

Of a body, the code comes in front of the tables.  It has no more bytes than are counted in front of it
(`Code.length_lt_of_decode`), and what was written is read back (`Code.bytes_of_decode`).
-/

namespace Bytecode

namespace ConstantPool

/-- Constants are numbered from one on, in ascending order, with numbers that fit into an index. -/
structure Numbered (constants : Tiling Constant) : Prop where
  start : constants.start = 1
  stop : 1 ≤ constants.stop
  ascending : Tiling.Ascending constants.tiles
  tiles : ∀ (j : Nat) (tile : Nat × Constant), constants.tiles[j]? = some tile →
    1 ≤ tile.1 ∧ tile.1 < constants.stop ∧ tile.1 < 65536

theorem numbered_empty : Numbered (Tiling.empty 1) where
  start := rfl
  stop := Nat.le_refl 1
  ascending j k a b _ hj _ := by simp [Tiling.empty] at hj
  tiles j tile h := by simp [Tiling.empty] at h

theorem Numbered.push {constants : Tiling Constant} (h : Numbered constants) (hstop : constants.stop < 65536)
    (constant : Constant) : Numbered (constants.push constant) := by
  have hpos := Constant.width_pos constant
  have hle := Constant.width_le constant
  have hnext := Tiling.stop_push_of_lt constants constant (by omega)
  -- the new tile comes last
  have htile : ∀ (j : Nat) (tile : Nat × Constant), (constants.push constant).tiles[j]? = some tile →
      j < constants.tiles.size ∧ constants.tiles[j]? = some tile ∨
        j = constants.tiles.size ∧ tile = (constants.stop, constant) := by
    intro j tile hj
    unfold Tiling.push at hj
    rw [Array.getElem?_push] at hj
    split at hj
    · rename_i hlast
      exact Or.inr ⟨hlast, (Option.some.inj hj).symm⟩
    · exact Or.inl ⟨(Array.getElem?_eq_some_iff.mp hj).1, hj⟩
  refine ⟨h.start, by omega, ?_, ?_⟩
  · intro j k a b hjk ha hb
    rcases htile j a ha with ⟨hj, ha⟩ | ⟨rfl, rfl⟩
    · rcases htile k b hb with ⟨-, hb⟩ | ⟨-, rfl⟩
      · exact h.ascending j k a b hjk ha hb
      · exact (h.tiles j a ha).2.1
    · rcases htile k b hb with ⟨hk, -⟩ | ⟨rfl, -⟩
      · omega
      · omega
  · intro j tile hj
    rcases htile j tile hj with ⟨-, hold⟩ | ⟨-, rfl⟩
    · have hold' := h.tiles j tile hold
      omega
    · exact ⟨h.stop, by omega, hstop⟩

theorem Numbered.readUpTo {count : UInt16} {constants result : Tiling Constant} {input rest : List UInt8}
    (h : Numbered constants) (hread : readUpTo count constants input = .ok (result, rest)) : Numbered result := by
  have hcount := count.toNat_lt
  fun_induction ConstantPool.readUpTo count constants input with
  | case1 => simp at hread
  | case2 constants input hlt constant rest' hone ih => exact ih (h.push (by omega) constant) hread
  | case3 =>
    obtain ⟨rfl, -⟩ := Prod.mk.inj (Except.ok.inj hread)
    exact h

theorem get?_eq_some_iff {pool : ConstantPool} (h : Numbered pool.constants) {index : ConstantIndex} {constant : Constant} :
    pool.get? index = some constant ↔ ∃ j : Nat, pool.constants.tiles[j]? = some (index.toNat, constant) := by
  have hstart : ∀ (j : Nat) (tile : Nat × Constant), pool.constants.tiles[j]? = some tile →
      pool.constants.start ≤ tile.1 := by
    intro j tile htile
    rw [h.start]
    exact (h.tiles j tile htile).1
  have hlocate : ∀ j : Nat, _ := fun j =>
    @Tiling.locate_eq_found_iff _ pool.constants h.ascending hstart index.toNat j constant
  unfold get?
  constructor
  · intro hget
    cases hfound : pool.constants.locate index.toNat with
    | found j item =>
      rw [hfound] at hget
      obtain rfl : item = constant := Option.some.inj hget
      exact ⟨j, (hlocate j).mp hfound⟩
    | inside j => simp [hfound, Located.item?] at hget
    | before => simp [hfound, Located.item?] at hget
    | beyond => simp [hfound, Located.item?] at hget
  · rintro ⟨j, hj⟩
    rw [(hlocate j).mpr hj]
    rfl

theorem utf8_eq_ok {pool : ConstantPool} {index : ConstantIndex} {text : String} :
    pool.utf8 index = .ok text ↔ pool.get? index = some (.utf8 text) := by
  unfold utf8
  split
  · rename_i found hfound
    simp [hfound]
  · rename_i hnot
    constructor
    · intro h
      simp at h
    · intro h
      exact absurd h (hnot text)

theorem same_utf8 {constant : Constant} {text : String} : constant.same (.utf8 text) = true ↔ constant = .utf8 text := by
  cases constant <;> simp [Constant.same]

/-- A text that is in the pool is found there, and nothing is added. -/
theorem internUtf8_of_utf8 {pool : ConstantPool} {index : ConstantIndex} {text : String}
    (hindex : pool.utf8 index = .ok text) :
    ∃ found, (internUtf8 text).run pool = (found, pool) ∧ (Numbered pool.constants → pool.utf8 found = .ok text) := by
  have hget := utf8_eq_ok.mp hindex
  have hmem : ∃ tile ∈ pool.constants.tiles, tile.2.same (.utf8 text) = true := by
    unfold get? Tiling.locate at hget
    split at hget
    · simp [Located.item?] at hget
    · dsimp only at hget
      split at hget
      · simp [Located.item?] at hget
      · rename_i offset constant htile
        split_ifs at hget
        · obtain rfl : constant = .utf8 text := Option.some.inj hget
          exact ⟨_, Array.mem_of_getElem? htile, same_utf8.mpr rfl⟩
        · simp [Located.item?] at hget
        · simp [Located.item?] at hget
  show ∃ found, intern (.utf8 text) pool = (found, pool) ∧ _
  unfold intern
  cases hfind : pool.constants.tiles.find? fun tile => tile.2.same (.utf8 text) with
  | none =>
    obtain ⟨tile, htile, hsame⟩ := hmem
    exact absurd hsame (Array.find?_eq_none.mp hfind tile htile)
  | some tile =>
    obtain ⟨offset, constant⟩ := tile
    refine ⟨UInt16.ofNat offset, rfl, fun h => ?_⟩
    have hsame := Array.find?_some hfind
    obtain rfl := same_utf8.mp hsame
    obtain ⟨k, hk⟩ := Array.mem_iff_getElem?.mp (Array.mem_of_find?_eq_some hfind)
    have hlt := (h.tiles k _ hk).2.2
    refine utf8_eq_ok.mpr ((get?_eq_some_iff h).mpr ⟨k, ?_⟩)
    rw [UInt16.toNat_ofNat_of_lt' hlt]
    exact hk

end ConstantPool

/-! ## Classes that were read -/

theorem ClassFile.numbered_of_ofBytes {bytes : List UInt8} {c : ClassFile} (h : ClassFile.ofBytes bytes = .ok c) :
    ConstantPool.Numbered c.constants.constants := by
  obtain ⟨⟨c', rest⟩, hread, rfl⟩ := map_eq_ok.mp h
  obtain ⟨found, input, -, hread⟩ := state_bind_eq_ok.mp hread
  split at hread
  · obtain ⟨_, _, hthrow, -⟩ := state_bind_eq_ok.mp hread
    exact (state_throw_ne_ok.mp hthrow).elim
  · simp only [state_bind_eq_ok, state_pure_eq_ok] at hread
    obtain ⟨_, _, -, _, _, -, pool, _, hpool, _, _, -, _, _, -, _, _, -, _, _, -, _, _, -, _, _, -, _, _, -, hlast⟩ := hread
    obtain ⟨count, input', -, hpool⟩ := state_bind_eq_ok.mp hpool
    obtain ⟨constants, _, hconstants, hpool⟩ := state_bind_eq_ok.mp hpool
    obtain ⟨rfl, -⟩ := Prod.mk.inj (state_pure_eq_ok.mp hpool)
    obtain ⟨rfl, -⟩ := Prod.mk.inj hlast
    exact ConstantPool.numbered_empty.readUpTo hconstants

/-! ## Code that was written -/

namespace Binary

theorem number_bigEndian (count n : Nat) (rest : List UInt8) :
    number count (bigEndian count n ++ rest) = .ok (n % 256 ^ count, rest) := by
  have hexactly := exactly_append (bigEndian count n) rest
  rw [length_bigEndian] at hexactly
  exact state_map_eq_ok.mpr ⟨_, rest, hexactly, by rw [ofBigEndian_bigEndian]⟩

/-- Bytes that were written after their length are read back, as long as the length fits. -/
theorem readSized_sized {width : Nat} {bytes : List UInt8} (hfits : bytes.length < 256 ^ width) (rest : List UInt8) :
    readSized width (sized width bytes ++ rest) = .ok (bytes, rest) := by
  refine state_bind_eq_ok.mpr ⟨bytes.length, bytes ++ rest, ?_, exactly_append bytes rest⟩
  rw [sized, List.append_assoc, number_bigEndian, Nat.mod_eq_of_lt hfits]

theorem exactly_eq_ok {count : Nat} {input front rest : List UInt8} (h : exactly count input = .ok (front, rest)) :
    front.length = count := by
  unfold exactly at h
  dsimp only at h
  split at h
  · rename_i hlength
    obtain ⟨rfl, -⟩ := Prod.mk.inj (Except.ok.inj h)
    exact hlength
  · simp at h

theorem ofBigEndian_lt (bytes : List UInt8) : ofBigEndian bytes < 256 ^ bytes.length := by
  induction bytes using List.reverseRecOn with
  | nil => simp [ofBigEndian]
  | append_singleton bytes b ih =>
    have hb := b.toNat_lt
    unfold ofBigEndian at ih ⊢
    rw [List.foldl_append, List.length_append, List.length_singleton, Nat.pow_succ]
    simp only [List.foldl_cons, List.foldl_nil]
    omega

/-- Bytes that follow their length are no more than the length can count. -/
theorem length_lt_of_readSized {width : Nat} {input bytes rest : List UInt8}
    (h : readSized width input = .ok (bytes, rest)) : bytes.length < 256 ^ width := by
  obtain ⟨count, input', hcount, hbytes⟩ := state_bind_eq_ok.mp h
  obtain ⟨front, _, hfront, heq⟩ := state_map_eq_ok.mp hcount
  obtain ⟨rfl, rfl⟩ := Prod.mk.inj heq
  rw [exactly_eq_ok hbytes, ← exactly_eq_ok hfront]
  exact ofBigEndian_lt front

end Binary

theorem read_write_uint16 (n : UInt16) (rest : List UInt8) :
    (read : Reader UInt16) (write n ++ rest) = .ok (n, rest) := by
  refine state_map_eq_ok.mpr ⟨_, rest, Binary.number_bigEndian 2 n.toNat rest, ?_⟩
  rw [Nat.mod_eq_of_lt (by simpa using n.toNat_lt), UInt16.ofNat_toNat]

theorem Attribute.decode_eq_ok {α : Type} [AttributeContents α] {a : Attribute} {contents : α} :
    a.decode α = .ok contents ↔ (read : Reader α) a.info = .ok (contents, []) := by
  unfold Attribute.decode
  constructor
  · intro h
    split at h
    · simp at h
    · rename_i found hread
      obtain rfl := Except.ok.inj h
      exact hread
    · simp at h
  · intro h
    have hread : (read : Reader α).on a.info = .ok (contents, []) := h
    rw [hread]

namespace Code

/-- The tables of a body come after its code. -/
theorem read_eq_ok {input : List UInt8} {r : Code × List UInt8} (h : (read : Reader Code) input = .ok r) :
    ∃ maxStack maxLocals rest rest' rest'', (read : Reader UInt16) input = .ok (maxStack, rest) ∧
      (read : Reader UInt16) rest = .ok (maxLocals, rest') ∧ Binary.readSized 4 rest' = .ok (r.1.bytes, rest'') := by
  obtain ⟨maxStack, rest, hstack, h⟩ := state_bind_eq_ok.mp h
  obtain ⟨maxLocals, rest', hlocals, h⟩ := state_bind_eq_ok.mp h
  obtain ⟨bytes, rest'', hbytes, h⟩ := state_bind_eq_ok.mp h
  obtain ⟨_, _, -, h⟩ := state_bind_eq_ok.mp h
  obtain ⟨_, _, -, h⟩ := state_bind_eq_ok.mp h
  obtain rfl := state_pure_eq_ok.mp h
  exact ⟨maxStack, maxLocals, rest, rest', rest'', hstack, hlocals, hbytes⟩

theorem length_lt_of_decode {a : Attribute} {code : Code} (h : a.decode Code = .ok code) :
    code.bytes.length < 2 ^ 32 := by
  obtain ⟨_, _, _, _, _, -, -, hbytes⟩ := read_eq_ok (Attribute.decode_eq_ok.mp h)
  exact Binary.length_lt_of_readSized hbytes

/-- Code that was written is read back.  The tables behind it need not be, since they can be too long to be counted. -/
theorem bytes_of_decode {code code' : Code} {nameIndex : ConstantIndex} (hfits : code.bytes.length < 2 ^ 32)
    (h : Attribute.decode Code ⟨nameIndex, write code⟩ = .ok code') : code'.bytes = code.bytes := by
  have hwrite : write code = write code.maxStack ++ (write code.maxLocals ++ (Binary.sized 4 code.bytes ++
      (write code.exceptionTable ++ write code.attributes))) := by
    simp only [write, List.append_assoc]
  obtain ⟨_, _, _, _, _, hstack, hlocals, hbytes⟩ := read_eq_ok (Attribute.decode_eq_ok.mp h)
  rw [hwrite, read_write_uint16] at hstack
  obtain ⟨-, rfl⟩ := Prod.mk.inj (Except.ok.inj hstack)
  rw [read_write_uint16] at hlocals
  obtain ⟨-, rfl⟩ := Prod.mk.inj (Except.ok.inj hlocals)
  rw [Binary.readSized_sized hfits] at hbytes
  exact (Prod.mk.inj (Except.ok.inj hbytes)).1.symm

end Code

end Bytecode
