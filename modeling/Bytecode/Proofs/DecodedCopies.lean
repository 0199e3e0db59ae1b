import Bytecode.Proofs.Emission

/-!
# The new code, decoded

Decoding the new code gives back one instruction for each copy that is not left out:

* `Verified.Lays.exists_emitted`: a position inside the new code belongs to one copy that is emitted there;
* `Verified.Lays.becomes_of_laid`, `Verified.Lays.instruction_of_copy` and `Verified.Lays.copy_of_instruction`: the
  instructions of the new code are what the copies become, at the positions of the copies;
* `Layout.FlowOf`: what a copy does, with the copies that it names by their numbers;
* `Verified.Lays.decode_iff`: the new code can be decoded exactly if no copy names the end of the code, where only
  copies that are left out can stand.
-/

namespace Bytecode

namespace Verified.Lays

variable {v : Verified} {code bytes : List UInt8} {l : Layout} {b : Body}

/-! ## Positions inside the new code -/

/-- Behind a copy that is emitted, positions are greater. -/
theorem startOf_lt (h : v.Lays code l) {m n : Nat} {c : Copy} (hc : l.expansion.copies[m]? = some c)
    (hemitted : c.isEmitted = true) (hmn : m < n) (hn : n ≤ l.expansion.copies.size) : l.startOf m < l.startOf n := by
  have hsucc := h.start_succ m c hc
  have hlater := h.start_mono (show m + 1 ≤ n from hmn) hn
  have hsize : c.sizeAt (l.startOf m) ≠ 0 := by
    rw [Ne, h.sizeAt_eq_zero_iff hc, hemitted]
    simp
  omega

theorem startOf_lt_size (h : v.Lays code l) {m : Nat} {c : Copy} (hc : l.expansion.copies[m]? = some c)
    (hemitted : c.isEmitted = true) : l.startOf m < l.size := by
  rw [← h.start_size]
  exact h.startOf_lt hc hemitted (Array.getElem?_eq_some_iff.mp hc).1 (Nat.le_refl _)

/-- A copy that is left out starts where the next one does. -/
theorem startOf_succ_of_skip (h : v.Lays code l) {m : Nat} {c : Copy} (hc : l.expansion.copies[m]? = some c)
    (hskip : c.isEmitted = false) : l.startOf (m + 1) = l.startOf m := by
  rw [h.start_succ m c hc, (h.sizeAt_eq_zero_iff hc _).mpr hskip, Nat.add_zero]

/-- Of the copies that are emitted, one alone starts at a position. -/
theorem emitted_unique (h : v.Lays code l) {m n : Nat} {c c' : Copy} (hc : l.expansion.copies[m]? = some c)
    (hemitted : c.isEmitted = true) (hc' : l.expansion.copies[n]? = some c') (hemitted' : c'.isEmitted = true)
    (hstart : l.startOf m = l.startOf n) : m = n := by
  have hm := (Array.getElem?_eq_some_iff.mp hc).1
  have hn := (Array.getElem?_eq_some_iff.mp hc').1
  rcases Nat.lt_trichotomy m n with hlt | heq | hgt
  · have := h.startOf_lt hc hemitted hlt (Nat.le_of_lt hn)
    omega
  · exact heq
  · have := h.startOf_lt hc' hemitted' hgt (Nat.le_of_lt hm)
    omega

/-- From a copy that starts inside the code, all are left out up to one that is emitted at its position. -/
theorem exists_emitted (h : v.Lays code l) {n : Nat} (hn : n ≤ l.expansion.copies.size) (hlt : l.startOf n < l.size) :
    ∃ m c, l.expansion.copies[m]? = some c ∧ c.isEmitted = true ∧ l.startOf m = l.startOf n := by
  induction hrest : l.expansion.copies.size - n generalizing n with
  | zero =>
    obtain rfl : n = l.expansion.copies.size := by omega
    rw [h.start_size] at hlt
    omega
  | succ rest ih =>
    have hc := Array.getElem?_eq_getElem (show n < l.expansion.copies.size by omega)
    cases hemitted : (l.expansion.copies[n]).isEmitted with
    | true => exact ⟨n, _, hc, hemitted, rfl⟩
    | false =>
      have hstart := h.startOf_succ_of_skip hc hemitted
      obtain ⟨m, c, hm, hc', hsame⟩ := ih (show n + 1 ≤ _ by omega) (by omega) (by omega)
      exact ⟨m, c, hm, hc', hsame.trans hstart⟩

/-! ## Instructions of the new code -/

/-- What is decoded at the position of a copy is what the copy becomes. -/
theorem becomes_of_laid (h : v.Lays code l) (hemits : l.Emits bytes) (hb : b.Laid bytes) {number index : Nat} {c : Copy}
    {i : Instruction} (hc : l.expansion.copies[number]? = some c) (hemitted : c.isEmitted = true)
    (hi : b.get? index = some i) (hposition : i.position = l.startOf number) : l.Becomes (l.startOf number) c i := by
  obtain ⟨i', hbecomes, hdecodes⟩ := h.decodes_of_emits hemits hc hemitted
  have hdecodes := hdecodes (l.size + 1) (Nat.le_succ _) fun t ht => Nat.lt_succ_of_le (h.targets_le hbecomes t ht)
  have hi := hb.decodes hi
  rw [hposition] at hi
  rw [hi.unique hdecodes]
  exact hbecomes

/-- Where a copy starts inside the new code, an instruction does. -/
theorem exists_instruction (h : v.Lays code l) (hemits : l.Emits bytes) (hb : b.Laid bytes) {n : Nat}
    (hn : n ≤ l.expansion.copies.size) (hlt : l.startOf n < l.size) :
    ∃ index i, b.get? index = some i ∧ i.position = l.startOf n := by
  induction n with
  | zero =>
    rw [h.start_zero] at hlt ⊢
    have hsize : b.size ≠ 0 := by
      intro hempty
      have hzero := hb.scanned.empty hempty
      rw [hemits.length_eq] at hzero
      omega
    obtain ⟨i, hi⟩ := b.exists_get? 0 (by omega)
    exact ⟨0, i, hi, hb.position_zero hi⟩
  | succ n ih =>
    have hc := Array.getElem?_eq_getElem (show n < l.expansion.copies.size by omega)
    have hbefore : l.startOf n ≤ l.startOf (n + 1) := h.start_mono (Nat.le_succ n) hn
    obtain ⟨index, i, hi, hposition⟩ := ih (by omega) (by omega)
    cases hemitted : (l.expansion.copies[n]).isEmitted with
    | false =>
      rw [h.startOf_succ_of_skip hc hemitted]
      exact ⟨index, i, hi, hposition⟩
    | true =>
      -- the copy has become the instruction there, so the next one starts behind it
      have hbecomes := h.becomes_of_laid hemits hb hc hemitted hi hposition
      have hnext : i.next = l.startOf (n + 1) := by
        unfold Instruction.next
        rw [h.start_succ n _ hc, hbecomes.size_eq, hposition]
      have hmore : index + 1 < b.size := by
        refine Nat.lt_of_not_le fun hlast => ?_
        have hend := hb.next_eq_length hi hlast
        rw [hemits.length_eq] at hend
        omega
      obtain ⟨i', hi'⟩ := b.exists_get? (index + 1) hmore
      exact ⟨index + 1, i', hi', (hb.position_succ hi hi').trans hnext⟩

/-- Every copy that is emitted is an instruction of the new code. -/
theorem instruction_of_copy (h : v.Lays code l) (hemits : l.Emits bytes) (hb : b.Laid bytes) {number : Nat} {c : Copy}
    (hc : l.expansion.copies[number]? = some c) (hemitted : c.isEmitted = true) :
    ∃ index i, b.get? index = some i ∧ i.position = l.startOf number ∧ l.Becomes (l.startOf number) c i := by
  have hlt := (Array.getElem?_eq_some_iff.mp hc).1
  obtain ⟨index, i, hi, hposition⟩ :=
    h.exists_instruction hemits hb (Nat.le_of_lt hlt) (h.startOf_lt_size hc hemitted)
  exact ⟨index, i, hi, hposition, h.becomes_of_laid hemits hb hc hemitted hi hposition⟩

/-- Every instruction of the new code is a copy that is emitted. -/
theorem copy_of_instruction (h : v.Lays code l) (hemits : l.Emits bytes) (hb : b.Laid bytes) {index : Nat}
    {i : Instruction} (hi : b.get? index = some i) :
    ∃ number c, l.expansion.copies[number]? = some c ∧ c.isEmitted = true ∧ l.startOf number = i.position := by
  have hinside := hb.position_lt_length hi
  rw [hemits.length_eq] at hinside
  -- the first copy starts at zero, and behind an instruction comes what starts behind its copy
  induction index generalizing i with
  | zero =>
    rw [hb.position_zero hi] at hinside ⊢
    rw [← h.start_zero] at hinside ⊢
    exact h.exists_emitted (Nat.zero_le _) hinside
  | succ index ih =>
    have hlt := Body.Laid.get?_isSome_iff.mp (Option.isSome_of_eq_some hi)
    obtain ⟨before, hbefore⟩ := b.exists_get? index (by omega)
    have hbehind := hb.position_lt (Nat.lt_succ_self index) hbefore hi
    obtain ⟨number, c, hc, hemitted, hstart⟩ := ih hbefore (by omega)
    have hbecomes := h.becomes_of_laid hemits hb hc hemitted hbefore hstart.symm
    have hnext : i.position = l.startOf (number + 1) := by
      rw [hb.position_succ hbefore hi, h.start_succ number c hc, ← hbecomes.size_eq, hstart]
      rfl
    rw [hnext] at hinside ⊢
    exact h.exists_emitted (Array.getElem?_eq_some_iff.mp hc).1 hinside

end Verified.Lays

/-! ## What copies do -/

namespace Layout

/-- What a copy does, with the copies that it names by their numbers.  A copy that is left out goes on to the next. -/
inductive FlowOf (l : Layout) (number : Nat) (c : Copy) : Flow → Prop
  | skip (hskip : c.disposition = .skip) : FlowOf l number c (.branch .goto (number + 1))
  | keep {flow : Flow} (hkeep : c.disposition = .keep)
      (hflow : c.instruction.flow.Moved (fun t m => l.expansion.resolve t c.call = .ok m) flow) : FlowOf l number c flow
  | jsr {callee : Call} {target m : Nat} (hcall : c.disposition = .jsrGoto callee)
      (hflow : c.instruction.flow = .jsr target) (htarget : l.expansion.resolve target callee = .ok m) :
      FlowOf l number c (.branch .goto m)
  | ret {m : Nat} (hret : c.disposition = .retGoto m) : FlowOf l number c (.branch .goto m)

/-- All copies that are named start inside the new code. -/
def NamesInside (l : Layout) : Prop :=
  ∀ (number : Nat) (c : Copy) (flow : Flow), l.expansion.copies[number]? = some c → c.isEmitted = true →
    l.FlowOf number c flow → ∀ m ∈ flow.targets, l.startOf m < l.size

variable {l : Layout} {number position : Nat} {c : Copy}

theorem FlowOf.unique {flow flow' : Flow} (h : l.FlowOf number c flow) (h' : l.FlowOf number c flow') :
    flow = flow' := by
  have hresolve : Relator.RightUnique fun t m => l.expansion.resolve t c.call = .ok m := by
    intro t m m' hm hm'
    exact Except.ok.inj (hm.symm.trans hm')
  cases h with
  | skip hskip =>
    cases h' with
    | skip => rfl
    | keep hkeep => simp [hskip] at hkeep
    | jsr hcall => simp [hskip] at hcall
    | ret hret => simp [hskip] at hret
  | keep hkeep hflow =>
    cases h' with
    | skip hskip => simp [hskip] at hkeep
    | keep hkeep' hflow' => exact hflow.unique hresolve hflow'
    | jsr hcall => simp [hkeep] at hcall
    | ret hret => simp [hkeep] at hret
  | jsr hcall hflow htarget =>
    cases h' with
    | skip hskip => simp [hskip] at hcall
    | keep hkeep => simp [hkeep] at hcall
    | jsr hcall' hflow' htarget' =>
      obtain rfl := Disposition.jsrGoto.inj (hcall.symm.trans hcall')
      obtain rfl := Flow.jsr.inj (hflow.symm.trans hflow')
      rw [Except.ok.inj (htarget.symm.trans htarget')]
    | ret hret => simp [hcall] at hret
  | ret hret =>
    cases h' with
    | skip hskip => simp [hskip] at hret
    | keep hkeep => simp [hkeep] at hret
    | jsr hcall => simp [hcall] at hret
    | ret hret' => rw [Disposition.retGoto.inj (hret.symm.trans hret')]

/-- An instruction of the new code does what its copy does, at the positions of the copies. -/
theorem Becomes.exists_flow {i : Instruction} (h : l.Becomes position c i) (number : Nat) :
    ∃ flow, l.FlowOf number c flow ∧ flow.Moved (fun m u => l.positionOf m = u) i.flow := by
  cases h with
  | keep hkeep hflow =>
    obtain ⟨flow, hfirst, hsecond⟩ :=
      (hflow.mono fun t _ u hu => map_eq_ok.mp hu : c.instruction.flow.Moved
        (fun t u => ∃ m, l.expansion.resolve t c.call = .ok m ∧ l.positionOf m = u) _).between
    exact ⟨flow, .keep hkeep hfirst, hsecond⟩
  | jsr hcall hflow htarget hopcode =>
    obtain ⟨m, hm, hposition⟩ := map_eq_ok.mp htarget
    exact ⟨_, .jsr hcall hflow hm, .branch hposition⟩
  | ret hret => exact ⟨_, .ret hret, .branch rfl⟩

end Layout

namespace Verified.Lays

variable {v : Verified} {code bytes : List UInt8} {l : Layout} {b : Body} {number : Nat} {c : Copy}

/-- A `goto` in place of a `ret` leads to where the `ret` goes on. -/
theorem returnTarget_of_retGoto (h : v.Lays code l) (hc : l.expansion.copies[number]? = some c) {m : Nat}
    (hret : c.disposition = .retGoto m) : l.expansion.returnTarget v c = .ok m := by
  have hleaf := h.leaf number c hc
  unfold Verified.leafDisposition at hleaf
  cases hflow : c.instruction.flow with
  | plain op =>
    simp only [hflow, hret] at hleaf
    have hleaf := hleaf (by simp) (by simp)
    split at hleaf <;> simp at hleaf
  | branch kind target => simp [hflow, hret] at hleaf
  | select default cases => simp [hflow, hret] at hleaf
  | jsr target =>
    rcases h.jsr number c target hc hflow with hgoto | ⟨hskip, -⟩
    · simp [hret] at hgoto
    · simp [hret] at hskip
  | ret index =>
    obtain ⟨target, htarget, hdisposition⟩ := h.ret number c index hc hflow
    rw [hret] at hdisposition
    split at hdisposition
    · simp at hdisposition
    · rw [Disposition.retGoto.inj hdisposition]
      exact htarget

/-- A copy that is emitted only names copies. -/
theorem copy_of_target (h : v.Lays code l) (hc : l.expansion.copies[number]? = some c) (hemitted : c.isEmitted = true)
    {flow : Flow} (hflow : l.FlowOf number c flow) {m : Nat} (hm : m ∈ flow.targets) :
    ∃ c', l.expansion.copies[m]? = some c' := by
  cases hflow with
  | skip hskip => simp [Copy.isEmitted, Disposition.isEmitted, hskip] at hemitted
  | keep hkeep hmoved =>
    obtain ⟨k, hk⟩ := List.mem_iff_getElem?.mp hm
    obtain ⟨t, -, hresolve⟩ := forall₂_getElem? hmoved.forall₂_targets hk
    exact Expansion.exists_copy_of_resolve hresolve
  | jsr hcall hjsr htarget =>
    obtain rfl : m = _ := by simpa [Flow.targets] using hm
    exact Expansion.exists_copy_of_resolve htarget
  | @ret target hret =>
    obtain rfl : m = target := by simpa [Flow.targets] using hm
    obtain ⟨_, _, _, _, _, -, -, -, -, -, hresolve⟩ :=
      Expansion.returnTarget_eq_ok (h.returnTarget_of_retGoto hc hret)
    exact Expansion.exists_copy_of_resolve hresolve

/-- What an instruction of the new code does, by the numbers of the copies. -/
theorem moved_of_becomes (h : v.Lays code l) (hc : l.expansion.copies[number]? = some c) (hemitted : c.isEmitted = true)
    {position : Nat} {i : Instruction} {flow : Flow} (hbecomes : l.Becomes position c i)
    (hflow : l.FlowOf number c flow) : flow.Moved (fun m u => l.startOf m = u) i.flow := by
  obtain ⟨flow', hflow', hmoved⟩ := hbecomes.exists_flow number
  obtain rfl := hflow.unique hflow'
  apply hmoved.mono
  intro m hm u hu
  obtain ⟨c', hc'⟩ := h.copy_of_target hc hemitted hflow hm
  rw [← h.positionOf_eq hc']
  exact hu

/-! ## When the new code can be decoded -/

theorem targets_lt (h : v.Lays code l) (hinside : l.NamesInside) (hc : l.expansion.copies[number]? = some c)
    (hemitted : c.isEmitted = true) {position : Nat} {i : Instruction} (hbecomes : l.Becomes position c i) :
    ∀ t ∈ i.targets, ∃ m c', l.expansion.copies[m]? = some c' ∧ l.startOf m = t ∧ t < l.size := by
  intro t ht
  obtain ⟨flow, hflow, -⟩ := hbecomes.exists_flow number
  have hmoved := h.moved_of_becomes hc hemitted hbecomes hflow
  rw [Instruction.targets_eq] at ht
  obtain ⟨k, hk⟩ := List.mem_iff_getElem?.mp ht
  obtain ⟨m, hm, rfl⟩ := forall₂_getElem? hmoved.forall₂_targets hk
  have hm := List.mem_of_getElem? hm
  obtain ⟨c', hc'⟩ := h.copy_of_target hc hemitted hflow hm
  exact ⟨m, c', hc', rfl, hinside number c flow hc hemitted hflow m hm⟩

/-- Scanning goes through from the start of each copy on. -/
theorem scanOnto_of_inside (h : v.Lays code l) (hemits : l.Emits bytes) (hinside : l.NamesInside) {n : Nat}
    (hn : n ≤ l.expansion.copies.size) (front : Tiling Instruction) :
    (Body.scanOnto bytes.length front (l.startOf n) (bytes.drop (l.startOf n))).2 = none := by
  induction hrest : l.expansion.copies.size - n generalizing n front with
  | zero =>
    obtain rfl : n = l.expansion.copies.size := by omega
    have hnil : bytes.drop (l.startOf l.expansion.copies.size) = [] := by
      rw [h.start_size, ← hemits.length_eq]
      exact List.drop_length
    rw [hnil, Body.scanOnto]
  | succ rest ih =>
    have hc := Array.getElem?_eq_getElem (show n < l.expansion.copies.size by omega)
    cases hemitted : (l.expansion.copies[n]).isEmitted with
    | false =>
      rw [← h.startOf_succ_of_skip hc hemitted]
      exact ih (by omega) front (by omega)
    | true =>
      obtain ⟨i, hbecomes, hdecodes⟩ := h.decodes_of_emits hemits hc hemitted
      have htargets : ∀ t ∈ i.targets, t < bytes.length := by
        intro t ht
        obtain ⟨_, _, -, -, hlt⟩ := h.targets_lt hinside hc hemitted hbecomes t ht
        rw [hemits.length_eq]
        exact hlt
      have hdecodes := hdecodes bytes.length (Nat.le_of_eq hemits.length_eq.symm) htargets
      have hpos := hdecodes.size_pos
      have hnext : l.startOf n + i.size = l.startOf (n + 1) := by
        rw [h.start_succ n _ hc, hbecomes.size_eq]
      have hdecode := Instruction.decodeFrom_eq_ok.mpr hdecodes
      have hlater := ih (show n + 1 ≤ _ by omega) (front.push i) (by omega)
      rw [← hnext, ← List.drop_drop] at hlater
      generalize bytes.drop (l.startOf n) = tail at hdecode hlater ⊢
      cases tail with
      | nil => simp [Instruction.decodeFrom] at hdecode
      | cons opcode operands =>
        rw [Body.scanOnto, hdecode]
        have hdrop : (opcode :: operands).drop i.size = operands.drop (i.size - 1) := by
          obtain ⟨size, hsize⟩ := Nat.exists_eq_add_of_le' hpos
          rw [hsize]
          rfl
        rw [hdrop] at hlater
        exact hlater

/-- The new code can be decoded exactly if all copies that are named start inside of it. -/
theorem decode_iff (h : v.Lays code l) (hemits : l.Emits bytes) :
    (∃ b, Body.decode bytes = .ok b) ↔ l.NamesInside := by
  have hfits : bytes.length < 2 ^ 64 := by
    rw [hemits.length_eq]
    exact Nat.lt_trans (h.lt_word (Nat.le_refl _)) (by decide)
  constructor
  · rintro ⟨b, hdecode⟩ number c flow hc hemitted hflow m hm
    have hb := Body.decode_tiles hdecode hfits
    obtain ⟨index, i, hi, -, hbecomes⟩ := h.instruction_of_copy hemits hb.toLaid hc hemitted
    have hmoved := h.moved_of_becomes hc hemitted hbecomes hflow
    obtain ⟨k, hk⟩ := List.mem_iff_getElem?.mp hm
    obtain ⟨t, ht, rfl⟩ := forall₂_getElem? hmoved.forall₂_targets.flip hk
    obtain ⟨_, i', hi', hposition⟩ := hb.target_start hi (List.mem_of_getElem? ht)
    rw [← hposition, ← hemits.length_eq]
    exact hb.position_lt_length hi'
  · intro hinside
    have hscan := h.scanOnto_of_inside hemits hinside (Nat.zero_le _) (Tiling.empty 0)
    rw [h.start_zero] at hscan
    have hscan : Body.scan bytes = ((Body.scan bytes).1, none) := Prod.ext rfl hscan
    have hb := Body.laid_of_scan hfits hscan
    refine ⟨_, Body.decode_of_scan hscan ?_⟩
    intro index i hi t ht
    obtain ⟨number, c, hc, hemitted, hstart⟩ := h.copy_of_instruction hemits hb hi
    have hbecomes := h.becomes_of_laid hemits hb hc hemitted hi hstart.symm
    obtain ⟨m, c', hc', rfl, hlt⟩ := h.targets_lt hinside hc hemitted hbecomes t ht
    obtain ⟨index', i', hi', hposition⟩ :=
      h.exists_instruction hemits hb (Nat.le_of_lt (Array.getElem?_eq_some_iff.mp hc').1) hlt
    exact Option.isSome_of_eq_some (hb.indexOf?_eq_some_iff.mpr ⟨i', hi', hposition⟩)

end Verified.Lays

end Bytecode
