import Bytecode.Proofs.Dispatch
import Bytecode.Proofs.InliningOutcome
import Bytecode.Proofs.RoundTrip

/-!
# Line numbers and variables of the new code

A copy of an instruction belongs to the source line of the instruction, and the variables live in it that lived in the
instruction.  The tables are made anew along the copies: a line is entered where it changes, and a variable for each
range of copies in which it lives.

* `lineOf?`: the line that a table in any order tells for a position, and `Layout.lineAt_eq_lineOf?`: this is what is
  looked up;
* `Layout.lineOf?_lineChanges`: entries where the line changes tell the line everywhere;
* `Layout.FollowsLines`, `Layout.FollowsVariable`: what the new entries have to tell;
* `debug_tables_follow`: they do so in all tables of the new code.
-/

namespace Bytecode

/-- With the entries sorted by their starts, those with the same start in the order of the table, the last one that
does not start behind a position. -/
def lastStart? (entries : List LineNumber) (position : Nat) : Option LineNumber :=
  ((entries.mergeSort fun a b => a.startPc ≤ b.startPc).filter fun e => e.startPc.toNat ≤ position).getLast?

/-- The line of a position in a table. -/
def lineOf? (entries : List LineNumber) (position : Nat) : Option UInt16 :=
  (lastStart? entries position).map LineNumber.line

namespace Layout

/-! ## Looking up lines -/

/-- The entry with the later start, of two with the same start the second. -/
def laterStart (a : LineNumber) : Option LineNumber → LineNumber
  | none => a
  | some b => if a.startPc ≤ b.startPc then b else a

/-- The better of what was found so far and an entry. -/
def better (position : Nat) (best : Option LineNumber) (entry : LineNumber) : Option LineNumber :=
  if entry.startPc.toNat ≤ position ∧ best.all fun b => b.startPc ≤ entry.startPc then some entry else best

theorem lineAt_eq_foldl (entries : List LineNumber) (position : Nat) :
    lineAt entries position = (entries.foldl (better position) none).map LineNumber.line := rfl

theorem laterStart_laterStart (a b : LineNumber) (found : Option LineNumber) :
    laterStart a (some (laterStart b found)) =
      if a.startPc ≤ b.startPc then laterStart b found else laterStart a found := by
  cases found with
  | none => rfl
  | some e =>
    by_cases hab : a.startPc ≤ b.startPc <;> by_cases hbe : b.startPc ≤ e.startPc
    · have hae : a.startPc ≤ e.startPc := UInt16.le_trans hab hbe
      simp [laterStart, hab, hbe, hae]
    · simp [laterStart, hab, hbe]
    · simp [laterStart, hab, hbe]
    · have hae : ¬ a.startPc ≤ e.startPc := by
        rw [UInt16.le_iff_toNat_le] at hab hbe ⊢
        omega
      simp [laterStart, hab, hbe, hae]

/-- What is found first competes with what is found behind it. -/
theorem foldl_better_some (position : Nat) (a : LineNumber) (entries : List LineNumber) :
    entries.foldl (better position) (some a) =
      some (laterStart a (entries.foldl (better position) none)) := by
  induction entries generalizing a with
  | nil => rfl
  | cons e entries ih =>
    rw [List.foldl_cons, List.foldl_cons]
    by_cases he : e.startPc.toNat ≤ position
    · have hnone : better position none e = some e := by simp [better, he]
      have hsome : better position (some a) e = if a.startPc ≤ e.startPc then some e else some a := by
        simp [better, he]
      rw [hnone, hsome, ih e, laterStart_laterStart]
      split
      · rw [ih]
      · rw [ih]
    · have hskip : ∀ best, better position best e = best := by
        intro best
        simp [better, he]
      rw [hskip, hskip, ih]

theorem startPc_trans (a b c : LineNumber) (hab : decide (a.startPc ≤ b.startPc) = true)
    (hbc : decide (b.startPc ≤ c.startPc) = true) : decide (a.startPc ≤ c.startPc) = true :=
  decide_eq_true (UInt16.le_trans (of_decide_eq_true hab) (of_decide_eq_true hbc))

theorem startPc_total (a b : LineNumber) : (decide (a.startPc ≤ b.startPc) || decide (b.startPc ≤ a.startPc)) = true := by
  simpa using UInt16.le_total a.startPc b.startPc

/-- The first entry of a table competes with what is found in the rest of it. -/
theorem lastStart?_cons (position : Nat) (a : LineNumber) (entries : List LineNumber) :
    lastStart? (a :: entries) position =
      if a.startPc.toNat ≤ position then some (laterStart a (lastStart? entries position))
      else lastStart? entries position := by
  obtain ⟨front, back, hsorted, hrest, hfront⟩ := List.mergeSort_cons startPc_trans startPc_total a entries
  have hpairwise := List.pairwise_mergeSort startPc_trans startPc_total (a :: entries)
  rw [hsorted] at hpairwise
  have hback := (List.pairwise_cons.mp (List.pairwise_append.mp hpairwise).2.1).1
  unfold lastStart?
  rw [hsorted, hrest, List.filter_append, List.filter_append]
  by_cases ha : a.startPc.toNat ≤ position
  · rw [if_pos ha, List.filter_cons_of_pos (by simpa using ha), List.getLast?_append, List.getLast?_append,
      List.getLast?_cons, Option.some_or]
    congr 1
    -- entries of the back start with `a` or behind it, those of the front before it
    cases hlast : (back.filter fun e => e.startPc.toNat ≤ position).getLast? with
    | some e =>
      have hle : a.startPc ≤ e.startPc := by
        simpa using hback e (List.mem_filter.mp (List.mem_of_getLast? hlast)).1
      rw [Option.getD_some, Option.some_or, laterStart, if_pos hle]
    | none =>
      rw [Option.getD_none, Option.none_or]
      cases hlast' : (front.filter fun e => e.startPc.toNat ≤ position).getLast? with
      | none => rfl
      | some e =>
        have hlt : ¬ a.startPc ≤ e.startPc := by
          simpa using hfront e (List.mem_filter.mp (List.mem_of_getLast? hlast')).1
        rw [laterStart, if_neg hlt]
  · rw [if_neg ha, List.filter_cons_of_neg (by simpa using ha)]

/-- What is looked up is the line that the table tells. -/
theorem lineAt_eq_lineOf? (entries : List LineNumber) (position : Nat) :
    lineAt entries position = lineOf? entries position := by
  rw [lineAt_eq_foldl, lineOf?]
  congr 1
  induction entries with
  | nil => simp [lastStart?]
  | cons a entries ih =>
    rw [lastStart?_cons, ← ih, List.foldl_cons]
    by_cases ha : a.startPc.toNat ≤ position
    · rw [if_pos ha, ← foldl_better_some]
      simp [better, ha]
    · rw [if_neg ha]
      simp [better, ha]

/-- A table in the order of its starts is searched as it is. -/
theorem lastStart?_of_ascending {entries : List LineNumber}
    (h : entries.Pairwise fun e e' => e.startPc.toNat < e'.startPc.toNat) (position : Nat) :
    lastStart? entries position = (entries.filter fun e => e.startPc.toNat ≤ position).getLast? := by
  have hsorted : entries.Pairwise fun e e' => decide (e.startPc ≤ e'.startPc) = true := by
    refine h.imp fun hlt => decide_eq_true ?_
    rw [UInt16.le_iff_toNat_le]
    omega
  rw [lastStart?, List.mergeSort_of_pairwise hsorted]

/-! ## Entries where the line changes -/

variable {marked : List (Nat × Option UInt16)} {current : Option UInt16}

/-- An entry stands at one of the positions and has its line. -/
theorem mem_lineChanges {e : LineNumber} (h : e ∈ lineChanges current marked) :
    ∃ position, (position, some e.line) ∈ marked ∧ e.startPc = UInt16.ofNat position := by
  fun_induction lineChanges current marked with
  | case1 => simp at h
  | case2 current position rest ih =>
    obtain ⟨start, hstart, hpc⟩ := ih h
    exact ⟨start, List.mem_cons_of_mem _ hstart, hpc⟩
  | case3 current position rest number hnew ih =>
    rcases List.mem_cons.mp h with rfl | h
    · exact ⟨position, List.mem_cons_self .., rfl⟩
    · obtain ⟨start, hstart, hpc⟩ := ih h
      exact ⟨start, List.mem_cons_of_mem _ hstart, hpc⟩
  | case4 current position rest hnew ih =>
    obtain ⟨start, hstart, hpc⟩ := ih h
    exact ⟨start, List.mem_cons_of_mem _ hstart, hpc⟩

/-- Entries for later positions start later. -/
theorem lineChanges_behind (hfits : ∀ m ∈ marked, m.1 < 65536) {position : Nat} (hbehind : ∀ m ∈ marked, position < m.1)
    {e : LineNumber} (h : e ∈ lineChanges current marked) : position < e.startPc.toNat := by
  obtain ⟨start, hstart, hpc⟩ := mem_lineChanges h
  rw [hpc, UInt16.toNat_ofNat_of_lt' (hfits _ hstart)]
  exact hbehind _ hstart

theorem lineChanges_ascending (hascending : marked.Pairwise fun m m' => m.1 < m'.1)
    (hfits : ∀ m ∈ marked, m.1 < 65536) :
    (lineChanges current marked).Pairwise fun e e' => e.startPc.toNat < e'.startPc.toNat := by
  fun_induction lineChanges current marked with
  | case1 => exact .nil
  | case2 current position rest ih =>
    exact ih (List.pairwise_cons.mp hascending).2 (List.forall_mem_cons.mp hfits).2
  | case3 current position rest number hnew ih =>
    obtain ⟨hbehind, hrest⟩ := List.pairwise_cons.mp hascending
    obtain ⟨hfit, hfits⟩ := List.forall_mem_cons.mp hfits
    refine List.pairwise_cons.mpr ⟨fun e he => ?_, ih hrest hfits⟩
    rw [UInt16.toNat_ofNat_of_lt' hfit]
    exact lineChanges_behind hfits hbehind he
  | case4 current position rest hnew ih =>
    exact ih (List.pairwise_cons.mp hascending).2 (List.forall_mem_cons.mp hfits).2

theorem length_lineChanges_le : (lineChanges current marked).length ≤ marked.length := by
  fun_induction lineChanges current marked with
  | case1 => exact Nat.le_refl _
  | case2 current position rest ih => exact Nat.le_succ_of_le ih
  | case3 current position rest number hnew ih => exact Nat.succ_le_succ ih
  | case4 current position rest hnew ih => exact Nat.le_succ_of_le ih

/-- Entries for later positions do not count. -/
theorem filter_lineChanges_behind (hfits : ∀ m ∈ marked, m.1 < 65536) {position : Nat}
    (hbehind : ∀ m ∈ marked, position < m.1) :
    (lineChanges current marked).filter (fun e => e.startPc.toNat ≤ position) = [] := by
  rw [List.filter_eq_nil_iff]
  intro e he
  have := lineChanges_behind hfits hbehind he
  simp only [decide_eq_true_eq]
  omega

/-- The last entry up to a position tells its line, and if there is none it has the line of before. -/
theorem lastLine_lineChanges (hascending : marked.Pairwise fun m m' => m.1 < m'.1) (hfits : ∀ m ∈ marked, m.1 < 65536)
    {position : Nat} {line : UInt16} (hmem : (position, some line) ∈ marked) :
    (((lineChanges current marked).filter fun e => e.startPc.toNat ≤ position).getLast?.map LineNumber.line).or current =
      some line := by
  fun_induction lineChanges current marked with
  | case1 => simp at hmem
  | case2 current head rest ih =>
    obtain ⟨hbehind, hrest⟩ := List.pairwise_cons.mp hascending
    have hfits' := (List.forall_mem_cons.mp hfits).2
    rcases List.mem_cons.mp hmem with heq | hmem
    · obtain ⟨rfl, rfl⟩ := Prod.mk.inj heq
      rw [filter_lineChanges_behind hfits' hbehind]
      rfl
    · exact ih hrest hfits' hmem
  | case3 current head rest number hnew ih =>
    obtain ⟨hbehind, hrest⟩ := List.pairwise_cons.mp hascending
    obtain ⟨hfit, hfits'⟩ := List.forall_mem_cons.mp hfits
    have hstart : (UInt16.ofNat head).toNat = head := UInt16.toNat_ofNat_of_lt' hfit
    rcases List.mem_cons.mp hmem with heq | hmem
    · obtain ⟨rfl, hline⟩ := Prod.mk.inj heq
      obtain rfl := Option.some.inj hline
      rw [List.filter_cons_of_pos (by simp [hstart]), filter_lineChanges_behind hfits' hbehind]
      rfl
    · have hlater : head < position := hbehind _ hmem
      have hfound := ih hrest hfits' hmem
      rw [List.filter_cons_of_pos (by simp only [hstart, decide_eq_true_eq]; omega), List.getLast?_cons]
      cases hlast : ((lineChanges (some number) rest).filter fun e => e.startPc.toNat ≤ position).getLast? with
      | none =>
        rw [hlast] at hfound
        exact hfound
      | some e =>
        rw [hlast] at hfound
        exact hfound
  | case4 current head rest hnew ih =>
    have hrest := (List.pairwise_cons.mp hascending).2
    have hfits' := (List.forall_mem_cons.mp hfits).2
    rcases List.mem_cons.mp hmem with heq | hmem
    · simp at heq
    · have hfound := ih hrest hfits' hmem
      rw [Option.or_none] at hfound
      rw [hfound, Option.some_or]

/-- In the new table each position has its line. -/
theorem lineOf?_lineChanges (hascending : marked.Pairwise fun m m' => m.1 < m'.1) (hfits : ∀ m ∈ marked, m.1 < 65536)
    {position : Nat} {line : UInt16} (hmem : (position, some line) ∈ marked) :
    lineOf? (lineChanges none marked) position = some line := by
  rw [lineOf?, lastStart?_of_ascending (lineChanges_ascending hascending hfits),
    ← lastLine_lineChanges hascending hfits hmem, Option.or_none]

end Layout

/-! ## Tables of the new code -/

/-- Does a variable live at a position? -/
def LocalVariable.lives (v : LocalVariable) (position : Nat) : Bool :=
  v.startPc.toNat ≤ position && position < v.startPc.toNat + v.length.toNat

namespace Layout

/-- A new table of lines for an old one. -/
structure FollowsLines (l : Layout) (old new : List LineNumber) : Prop where
  /-- Each copy has the line of its instruction. -/
  lines : ∀ placed ∈ l.emitted, ∀ line, lineOf? old placed.1.position = some line → lineOf? new placed.2 = some line
  ascending : new.Pairwise fun e e' => e.startPc < e'.startPc
  /-- An entry stands at a copy with its line, and nothing is cut off from the position. -/
  starts : ∀ e ∈ new, ∃ placed ∈ l.emitted,
    e.startPc.toNat = placed.2 ∧ lineOf? old placed.1.position = some e.line

/-- New entries for an old entry of a table of variables. -/
structure FollowsVariable (l : Layout) (old : LocalVariable) (new : List LocalVariable) : Prop where
  /-- The variable lives in the copies of the code in which it lived. -/
  lives : ∀ placed ∈ l.emitted, (∃ w ∈ new, w.lives placed.2 = true) ↔ old.lives placed.1.position = true
  same : ∀ w ∈ new, w.nameIndex = old.nameIndex ∧ w.typeIndex = old.typeIndex ∧ w.slot = old.slot
  nonempty : ∀ w ∈ new, 0 < w.length.toNat
  /-- Entries are in order, and do not overlap or touch. -/
  apart : new.Pairwise fun w w' => w.startPc.toNat + w.length.toNat < w'.startPc.toNat
  /-- Nothing is cut off from the bounds of the ranges. -/
  bounds : List.Forall₂ (fun r w => w.startPc.toNat = r.1 ∧ w.length.toNat = r.2 - r.1)
    (l.ranges fun c => old.lives c.position) new

/-- A table of variables is replaced by one with new entries for each old entry.  All of them are written, but their
count is cut off to 16 bits: with more entries than can be counted, those that are past the count are left over. -/
def FollowsVariables {α : Type} [AttributeContents α] (l : Layout) (entries : α → List LocalVariable) (a : Attribute)
    (part : List Attribute) : Prop :=
  ∃ (old new : α) (groups : List (List LocalVariable)), a.decode α = .ok old ∧ part = [a.withContents new] ∧
    List.Forall₂ l.FollowsVariable (entries old) groups ∧ entries new = groups.flatten ∧
    (a.withContents new).info = write (UInt16.ofNat (entries new).length) ++ (entries new).flatMap write ∧
    (a.withContents new).decode α = if (entries new).length ≤ 65535 then .ok new
      else .error (.trailingBytes (attributeName α) (10 * ((entries new).length - (entries new).length % 65536)))

/-- What becomes of an attribute with a table of lines or variables. -/
structure FollowsTables (l : Layout) (pool : ConstantPool) (a : Attribute) (part : List Attribute) : Prop where
  lineTable : a.isNamed (attributeName LineNumberTable) pool = true → ∃ old new : LineNumberTable,
    a.decode LineNumberTable = .ok old ∧ part = [a.withContents new] ∧
      (a.withContents new).decode LineNumberTable = .ok new ∧ l.FollowsLines old.entries new.entries
  variableTable : a.isNamed (attributeName LocalVariableTable) pool = true →
    l.FollowsVariables LocalVariableTable.entries a part
  typeTable : a.isNamed (attributeName LocalVariableTypeTable) pool = true →
    l.FollowsVariables LocalVariableTypeTable.entries a part

/-- The copies that are emitted with the lines of their instructions. -/
def copiedLines (l : Layout) (old : List LineNumber) : List (Nat × Option UInt16) :=
  l.emitted.map fun placed => (placed.2, lineAt old placed.1.position)

theorem lineNumbers_eq (l : Layout) (table : LineNumberTable) :
    (l.lineNumbers table).entries = lineChanges none (l.copiedLines table.entries) := rfl

/-- The entry of a variable over a range of new positions. -/
def variableOver (v : LocalVariable) (r : Nat × Nat) : LocalVariable :=
  { v with startPc := UInt16.ofNat r.1, length := UInt16.ofNat (r.2 - r.1) }

theorem variableEntries_eq (l : Layout) (v : LocalVariable) :
    l.variableEntries v = (l.ranges fun c => v.lives c.position).map (variableOver v) := rfl

end Layout

theorem Attribute.decode_withContents {α : Type} [AttributeContents α] (a : Attribute) {contents : α}
    (h : Serial.ReadsBack contents) : (a.withContents contents).decode α = .ok contents := by
  have hread := h []
  rw [List.append_nil] at hread
  exact Attribute.decode_eq_ok.mpr hread

theorem LocalVariable.length_write (v : LocalVariable) : (write v).length = 10 := by
  simp only [write, List.length_append, Binary.length_bigEndian]

/-- What is read of a table of variables, also if it is too long. -/
theorem Attribute.decode_variables {α : Type} [AttributeContents α] (make : List LocalVariable → α)
    (hread : (read : Reader α) = make <$> read) (hwrite : ∀ entries, write (make entries) = write entries)
    (a : Attribute) (entries : List LocalVariable) :
    (a.withContents (make entries)).decode α = if entries.length ≤ 65535 then .ok (make entries)
      else .error (.trailingBytes (attributeName α) (10 * (entries.length - entries.length % 65536))) := by
  have hon : (read : Reader α).on (write (make entries)) = .ok (make (entries.take (entries.length % 65536)),
      (entries.drop (entries.length % 65536)).flatMap write) := by
    rw [hread, hwrite]
    exact state_map_eq_ok.mpr ⟨_, _, Serial.read_write_list fun v _ => v.readsBack, rfl⟩
  have hrest : ((entries.drop (entries.length % 65536)).flatMap write).length =
      10 * (entries.length - entries.length % 65536) := by
    simp [List.length_flatMap, LocalVariable.length_write, Nat.mul_comm]
  unfold Attribute.decode Attribute.withContents
  rw [hon]
  split_ifs with hcount
  · rw [Nat.mod_eq_of_lt (Nat.lt_succ_of_le hcount), List.take_length, List.drop_length]
    rfl
  · cases hbytes : (entries.drop (entries.length % 65536)).flatMap write with
    | nil =>
      rw [hbytes, List.length_nil] at hrest
      omega
    | cons byte bytes => rw [← hrest, hbytes]

namespace Verified.Lays

variable {v : Verified} {code : List UInt8} {l : Layout}

theorem emitted_lt (h : v.Lays code l) {placed : Copy × Nat} (hplaced : placed ∈ l.emitted) : placed.2 < l.size := by
  obtain ⟨c, position⟩ := placed
  obtain ⟨n, hc, hemitted, rfl⟩ := h.mem_emitted_iff.mp hplaced
  exact h.startOf_lt_size hc hemitted

theorem length_emitted_le (h : v.Lays code l) : l.emitted.length ≤ l.size := by
  have hnodup : (l.emitted.map Prod.snd).Nodup :=
    List.pairwise_map.mpr (h.emitted_ascending.imp Nat.ne_of_lt)
  rw [← @List.length_map _ _ l.emitted Prod.snd]
  refine length_le_of_nodup hnodup ?_
  intro position hposition
  obtain ⟨placed, hplaced, rfl⟩ := List.mem_map.mp hposition
  exact h.emitted_lt hplaced

/-- The new table of lines follows the copies. -/
theorem followsLines (h : v.Lays code l) (table : LineNumberTable) :
    l.FollowsLines table.entries (l.lineNumbers table).entries := by
  have hascending : (l.copiedLines table.entries).Pairwise fun m m' => m.1 < m'.1 :=
    List.pairwise_map.mpr h.emitted_ascending
  have hfits : ∀ m ∈ l.copiedLines table.entries, m.1 < 65536 := by
    intro m hm
    obtain ⟨placed, hplaced, rfl⟩ := List.mem_map.mp hm
    have hlt := h.emitted_lt hplaced
    have hsize := h.size_le
    unfold Layout.maxCodeLength at hsize
    show placed.2 < 65536
    omega
  rw [Layout.lineNumbers_eq]
  constructor
  · intro placed hplaced line hline
    rw [← Layout.lineAt_eq_lineOf?] at hline
    exact Layout.lineOf?_lineChanges hascending hfits (List.mem_map.mpr ⟨placed, hplaced, by rw [hline]⟩)
  · exact (Layout.lineChanges_ascending hascending hfits).imp UInt16.lt_iff_toNat_lt.mpr
  · intro e he
    obtain ⟨position, hmem, hstart⟩ := Layout.mem_lineChanges he
    obtain ⟨placed, hplaced, heq⟩ := List.mem_map.mp hmem
    obtain ⟨rfl, hline⟩ := Prod.mk.inj heq
    rw [Layout.lineAt_eq_lineOf?] at hline
    refine ⟨placed, hplaced, ?_, hline⟩
    rw [hstart]
    exact h.toNat_ofNat (Nat.le_of_lt (h.emitted_lt hplaced))

/-- Nothing is cut off from the bounds of a range. -/
theorem variableOver_bounds (h : v.Lays code l) {covered : Copy → Bool} {r : Nat × Nat} (hr : r ∈ l.ranges covered)
    (old : LocalVariable) :
    (Layout.variableOver old r).startPc.toNat = r.1 ∧ (Layout.variableOver old r).length.toNat = r.2 - r.1 := by
  obtain ⟨hstart, hstop⟩ := h.range_fits hr
  have hlt := (UInt16.ofNat r.2).toNat_lt
  exact ⟨hstart, UInt16.toNat_ofNat_of_lt' (show r.2 - r.1 < 65536 by omega)⟩

theorem lives_variableOver (h : v.Lays code l) {covered : Copy → Bool} {r : Nat × Nat} (hr : r ∈ l.ranges covered)
    (old : LocalVariable) (position : Nat) :
    (Layout.variableOver old r).lives position = true ↔ r.1 ≤ position ∧ position < r.2 := by
  obtain ⟨hstart, hlength⟩ := h.variableOver_bounds hr old
  have horder := (h.range_bounds hr).1
  unfold LocalVariable.lives
  rw [hstart, hlength, Nat.add_sub_cancel' (Nat.le_of_lt horder)]
  simp

/-- The new entries of a variable follow the copies. -/
theorem followsVariable (h : v.Lays code l) (old : LocalVariable) : l.FollowsVariable old (l.variableEntries old) := by
  rw [Layout.variableEntries_eq]
  constructor
  · rintro ⟨c, position⟩ hplaced
    obtain ⟨number, hc, hemitted, rfl⟩ := h.mem_emitted_iff.mp hplaced
    rw [← h.ranges_cover (fun c => old.lives c.position) hc hemitted]
    constructor
    · rintro ⟨w, hw, hlives⟩
      obtain ⟨r, hr, rfl⟩ := List.mem_map.mp hw
      exact ⟨r, hr, (h.lives_variableOver hr old _).mp hlives⟩
    · rintro ⟨r, hr, hinside⟩
      exact ⟨_, List.mem_map_of_mem hr, (h.lives_variableOver hr old _).mpr hinside⟩
  · intro w hw
    obtain ⟨r, -, rfl⟩ := List.mem_map.mp hw
    exact ⟨rfl, rfl, rfl⟩
  · intro w hw
    obtain ⟨r, hr, rfl⟩ := List.mem_map.mp hw
    have horder := (h.range_bounds hr).1
    rw [(h.variableOver_bounds hr old).2]
    omega
  · rw [List.pairwise_map]
    refine (h.ranges_ascending _).imp_of_mem fun {r r'} hr hr' hbehind => ?_
    have hbehind : r.2 < r'.1 := hbehind
    have horder := (h.range_bounds hr).1
    rw [(h.variableOver_bounds hr old).1, (h.variableOver_bounds hr old).2, (h.variableOver_bounds hr' old).1]
    omega
  · rw [List.forall₂_map_right_iff, List.forall₂_same]
    intro r hr
    exact h.variableOver_bounds hr old

/-- The entries of all variables follow the copies. -/
theorem followsVariables (h : v.Lays code l) {α : Type} [AttributeContents α] {entries : α → List LocalVariable}
    (make : List LocalVariable → α) (hread : (read : Reader α) = make <$> read)
    (hwrite : ∀ es, write (make es) = write es) (hentries : ∀ es, entries (make es) = es) {a : Attribute} {old : α}
    (hdecode : a.decode α = .ok old) :
    l.FollowsVariables entries a [a.withContents (make (l.localVariables (entries old)))] := by
  refine ⟨old, _, (entries old).map l.variableEntries, hdecode, rfl, ?_, ?_, ?_, ?_⟩
  · rw [List.forall₂_map_right_iff, List.forall₂_same]
    intro entry _
    exact h.followsVariable entry
  · rw [hentries, Layout.localVariables, List.flatMap_def]
  · rw [hentries]
    exact hwrite _
  · rw [hentries]
    exact Attribute.decode_variables make hread hwrite a _

theorem readsBack_lineNumbers (h : v.Lays code l) (table : LineNumberTable) :
    Serial.ReadsBack (l.lineNumbers table) := by
  apply LineNumberTable.readsBack
  have hsize := h.size_le
  unfold Layout.maxCodeLength at hsize
  calc (l.lineNumbers table).entries.length
      ≤ (l.copiedLines table.entries).length := Layout.length_lineChanges_le
    _ = l.emitted.length := List.length_map _
    _ ≤ 65535 := Nat.le_trans h.length_emitted_le hsize

/-- The tables of the new code follow the copies. -/
theorem followsTables (h : v.Lays code l) {pool : ConstantPool} {old new : List Attribute}
    (hattributes : l.attributes pool old = .ok new) :
    ∃ parts, new = parts.flatten ∧ List.Forall₂ (l.FollowsTables pool) old parts := by
  obtain ⟨parts, hparts, rfl⟩ := map_eq_ok.mp hattributes
  refine ⟨parts, rfl, (mapM_eq_ok.mp hparts).imp fun a part hpart => ?_⟩
  split_ifs at hpart with hline hvariable htype hmap
  · obtain ⟨table, hdecode, hpart⟩ := bind_eq_ok.mp hpart
    obtain rfl := pure_eq_ok.mp hpart
    refine ⟨fun _ => ?_, fun hother => ?_, fun hother => ?_⟩
    · exact ⟨table, _, hdecode, rfl, a.decode_withContents (h.readsBack_lineNumbers table), h.followsLines table⟩
    · simp [Attribute.isNamed_unique hline (show _ ≠ attributeName LocalVariableTable by decide)] at hother
    · simp [Attribute.isNamed_unique hline (show _ ≠ attributeName LocalVariableTypeTable by decide)] at hother
  · obtain ⟨table, hdecode, hpart⟩ := bind_eq_ok.mp hpart
    obtain rfl := pure_eq_ok.mp hpart
    refine ⟨fun hother => absurd hother hline, fun _ => ?_, fun hother => ?_⟩
    · exact h.followsVariables LocalVariableTable.mk rfl (fun _ => rfl) (fun _ => rfl) hdecode
    · simp [Attribute.isNamed_unique hvariable (show _ ≠ attributeName LocalVariableTypeTable by decide)] at hother
  · obtain ⟨table, hdecode, hpart⟩ := bind_eq_ok.mp hpart
    obtain rfl := pure_eq_ok.mp hpart
    refine ⟨fun hother => absurd hother hline, fun hother => absurd hother hvariable, fun _ => ?_⟩
    exact h.followsVariables LocalVariableTypeTable.mk rfl (fun _ => rfl) (fun _ => rfl) hdecode
  -- an attribute with another name
  · exact ⟨fun hother => absurd hother hline, fun hother => absurd hother hvariable, fun hother => absurd hother htype⟩
  · exact ⟨fun hother => absurd hother hline, fun hother => absurd hother hvariable, fun hother => absurd hother htype⟩

end Verified.Lays

/-- The tables of lines and variables of the new code follow the copies.  Each copy has the line of its instruction, if it
had one, in a table with ascending starts; and a variable lives in exactly the copies of the instructions in which it
lived, with entries that are not empty, do not overlap or touch, and are in order. -/
theorem debug_tables_follow {method : Method} {v : Verified} {pool : ConstantPool} {out : Code}
    (hfits : method.code.bytes.length < 2 ^ 64) (hverify : method.verify = .ok v)
    (hinline : v.inline method.code pool = .ok out) :
    ∃ l parts, v.layout = .ok l ∧ l.emit method.code.bytes = .ok out.bytes ∧ out.attributes = parts.flatten ∧
      List.Forall₂ (l.FollowsTables pool) method.code.attributes parts := by
  obtain ⟨setup, s, hsettled⟩ := Method.settled hfits hverify
  rw [Verified.inline_eq] at hinline
  split at hinline
  · simp at hinline
  · rename_i l hlayout
    have hlays := Verified.lays_of_layout hsettled.tiles hlayout
    obtain ⟨bytes, hbytes, hcode⟩ := bind_eq_ok.mp hinline
    obtain ⟨attributes, hattributes, hcode⟩ := bind_eq_ok.mp hcode
    obtain rfl := pure_eq_ok.mp hcode
    obtain ⟨parts, hparts, hfollows⟩ := hlays.followsTables (mapError_eq_ok.mp hattributes)
    exact ⟨l, parts, hlayout, mapError_eq_ok.mp hbytes, hparts, hfollows⟩

/-- A pool with the names of two tables. -/
def tableNames : ConstantPool :=
  ((do let _ ← ConstantPool.internUtf8 "LineNumberTable"
       ConstantPool.internUtf8 "LocalVariableTable").run .empty).2

/-- The lines of `tracked`, not in order and with two entries for one position. -/
def trackedLines : LineNumberTable := ⟨[⟨8, 7⟩, ⟨0, 1⟩, ⟨9, 2⟩, ⟨9, 3⟩]⟩

/-- A body with tables and a subroutine that is called twice:

    0 jsr 8;  3 nop;  4 jsr 8;  7 return;  8 astore_0;  9 nop;  10 ret 0
-/
def tracked : Method :=
  let method := Method.bare ⟨[], none⟩ 1 1 [0xa8, 0x00, 0x08, 0x00, 0xa8, 0x00, 0x04, 0xb1, 0x4b, 0x00, 0xa9, 0x00]
  { method with
    code := { method.code with
      attributes := [⟨1, write trackedLines⟩, ⟨2, write (⟨[⟨8, 2, 5, 6, 0⟩]⟩ : LocalVariableTable)⟩] } }

/-- The new code is `nop nop nop return`, with the first and third `nop` from the subroutine. -/
theorem debug_tables_follow_tracked :
    ∃ v out l parts, tracked.verify = .ok v ∧ v.inline tracked.code tableNames = .ok out ∧ v.layout = .ok l ∧
      out.attributes = parts.flatten ∧ List.Forall₂ (l.FollowsTables tableNames) tracked.code.attributes parts ∧
      (tracked.code.attributes.map fun a => (a.isNamed (attributeName LineNumberTable) tableNames,
        a.isNamed (attributeName LocalVariableTable) tableNames)) = [(true, false), (false, true)] ∧
      (l.emitted.map fun placed => (placed.1.position, placed.2)) = [(9, 0), (3, 1), (9, 2), (7, 3)] ∧
      out.attributes = [⟨1, write (⟨[⟨0, 3⟩, ⟨1, 1⟩, ⟨2, 3⟩, ⟨3, 1⟩]⟩ : LineNumberTable)⟩,
        ⟨2, write (⟨[⟨0, 1, 5, 6, 0⟩, ⟨2, 1, 5, 6, 0⟩]⟩ : LocalVariableTable)⟩] := by
  obtain ⟨v, l, hverify, hlayout, htest⟩ := @Method.exists_layout_of_within tracked 30
    (fun v l => (v.inline tracked.code tableNames).toOption.any (fun out =>
        out.attributes = [⟨1, write (⟨[⟨0, 3⟩, ⟨1, 1⟩, ⟨2, 3⟩, ⟨3, 1⟩]⟩ : LineNumberTable)⟩,
          ⟨2, write (⟨[⟨0, 1, 5, 6, 0⟩, ⟨2, 1, 5, 6, 0⟩]⟩ : LocalVariableTable)⟩]) &&
      (l.emitted.map fun placed => (placed.1.position, placed.2)) = [(9, 0), (3, 1), (9, 2), (7, 3)]) (by decide +kernel)
  simp only [Bool.and_eq_true, Option.any_eq_true, decide_eq_true_eq] at htest
  obtain ⟨⟨out, hout, hattributes⟩, hemitted⟩ := htest
  have hinline : v.inline tracked.code tableNames = .ok out := toOption_eq_some.mp hout
  obtain ⟨l', parts, hlayout', -, hparts, hfollows⟩ := debug_tables_follow (by decide) hverify hinline
  obtain rfl := Except.ok.inj (hlayout.symm.trans hlayout')
  exact ⟨v, out, l, parts, hverify, hinline, hlayout, hparts, hfollows, by decide +kernel, hemitted, hattributes⟩

end Bytecode
