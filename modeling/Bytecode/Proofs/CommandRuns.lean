import Bytecode.CommandLine
import Bytecode.Proofs.FileContents
import Bytecode.Proofs.MethodByMethod

/-!
# Runs of the command line

The inputs are handled one after the other, and each conversion changes the files that later inputs are read from.  The
output of an input has its name, in the directory for outputs if there is one, so outputs can meet each other and inputs
that are still to be read.

* `CommandLine.place_outputPath_eq`: an input that an output was written over has its output at the same place;
* `CommandLine.handleInputs_done_iff`: a run without failures handles every input in turn (`CommandLine.InTurn`);
* `CommandLine.InTurn.contents_eq` and `CommandLine.InTurn.last_output`: what is in the files at the end;
* `CommandLine.verifyInput_done_iff`: when an input is only verified, it has no failures exactly if all methods with code
  are verified;
* `CommandLine.successful_run_outputs`: whole runs.
-/

namespace Bytecode

namespace CommandLine

open FileTree

variable {i : Invocation} {t t' : FileTree} {input : String}

/-! ## Outputs -/

/-- The name of a file is where a path to it ends. -/
theorem fileName?_eq_some {path name : String} (h : fileName? path = some name) :
    IsName name ∧ '/' ∉ name.toList ∧ ∃ around, place path = around ++ [name] := by
  unfold fileName? at h
  have hlast : ((components path).filter moves).getLast? = some name ∧ name ≠ ".." := by
    split at h
    · simp at h
    · simp at h
    · rename_i hup hlast
      obtain rfl := Option.some.inj h
      exact ⟨hlast, hup⟩
  obtain ⟨hlast, hup⟩ := hlast
  obtain ⟨front, hfront⟩ := List.getLast?_eq_some_iff.mp hlast
  have hmem : name ∈ (components path).filter moves := by
    rw [hfront]
    simp
  have hname : IsName name := ⟨(List.mem_filter.mp hmem).2, hup⟩
  refine ⟨hname, not_mem_of_mem_components (List.mem_filter.mp hmem).1, front.foldl next [], ?_⟩
  unfold place
  rw [foldl_next_filter, hfront, List.foldl_append]
  exact hname.next _

theorem fileName?_of_components {path name : String} {front : List String} (h : components path = front ++ [name])
    (hname : IsName name) : fileName? path = some name := by
  have hlast : ((components path).filter moves).getLast? = some name := by
    rw [h, List.filter_append, List.filter_cons_of_pos hname.1]
    simp
  unfold fileName?
  split
  · rename_i heq
    exact absurd (Option.some.inj (heq.symm.trans hlast)).symm hname.2
  · rename_i heq
    exact absurd (heq.symm.trans hlast) (by simp)
  · rename_i heq
    exact heq.symm.trans hlast

theorem outputPath_of_none {dir? : Option String} (h : fileName? input = none) : outputPath input dir? = input := by
  unfold outputPath
  rw [h]
  cases dir? <;> rfl

/-- Outputs have the names of their inputs. -/
theorem place_outputPath {dir name : String} (h : fileName? input = some name) :
    place (outputPath input (some dir)) = place dir ++ [name] := by
  obtain ⟨hname, hslash, -⟩ := fileName?_eq_some h
  unfold outputPath
  rw [h]
  dsimp only
  split
  · rename_i hends
    obtain ⟨front, hfront⟩ : ∃ front, dir = front ++ "/" := by
      rw [← String.endsWith_toSlice, String.Slice.endsWith_string_iff, String.copy_toSlice] at hends
      obtain ⟨chars, hchars⟩ := hends
      exact ⟨String.ofList chars, by simp [← String.toList_inj, ← hchars]⟩
    rw [hfront, place_slash]
    exact place_append front hslash hname
  · exact place_append dir hslash hname

/-- Where an output is written over an input, the output of that input goes to the same place. -/
theorem place_outputPath_eq {dir? : Option String} {earlier : String}
    (hwritten : ∃ front name, components (outputPath earlier dir?) = front ++ [name] ∧ IsName name)
    (h : place (outputPath earlier dir?) = place input) :
    place (outputPath input dir?) = place (outputPath earlier dir?) := by
  cases dir? with
  | none =>
    have hself : outputPath input none = input := rfl
    rw [hself, h]
  | some dir =>
    cases hinput : fileName? input with
    | none => rw [outputPath_of_none hinput, h]
    | some name =>
      cases hearlier : fileName? earlier with
      | none =>
        rw [outputPath_of_none hearlier] at hwritten
        obtain ⟨front, name', hcomponents, hname⟩ := hwritten
        rw [fileName?_of_components hcomponents hname] at hearlier
        simp at hearlier
      | some name' =>
        obtain ⟨-, -, around, haround⟩ := fileName?_eq_some hinput
        rw [place_outputPath hearlier, haround] at h
        rw [place_outputPath hinput, place_outputPath hearlier, (List.append_inj' h rfl).2]

/-! ## One input -/

theorem run_bind {α β : Type} (x : StateM FileTree α) (f : α → StateM FileTree β) (t : FileTree) :
    (x >>= f).run t = (f (x.run t).1).run (x.run t).2 := rfl

theorem run_readClass (t : FileTree) (path : String) : (access.readClass path).run t =
    ((match t.read? path with
      | none => .error .unreadable
      | some bytes => ClassFile.ofBytes bytes), t) := by
  have hread : (access.read path).run t = (t.read? path, t) := rfl
  unfold FileAccess.readClass
  rw [run_bind, hread]
  dsimp only
  cases t.read? path with
  | none => rfl
  | some bytes => rfl

theorem run_write (t : FileTree) (path : String) (bytes : List UInt8) :
    (access.write path bytes).run t = ((t.write? path bytes).isSome, (t.write? path bytes).getD t) := by
  have hget : (get : StateM FileTree FileTree).run t = (t, t) := rfl
  unfold access
  dsimp only
  rw [run_bind, hget]
  dsimp only
  cases t.write? path bytes with
  | none => rfl
  | some t' => rfl

/-- Bytes are those of a class, and a conversion of the class without failures gives other bytes. -/
def Invocation.Rewrites (i : Invocation) (old new : List UInt8) : Prop :=
  ∃ c report, ClassFile.ofBytes old = .ok c ∧ (c.convert i.settings none false).value.result = .ok report ∧
    report.failures = [] ∧ new = (c.convert i.settings none false).value.classFile.toBytes

/-- An input is read, converted without failures and written to its output. -/
def Invocation.Converts (i : Invocation) (t : FileTree) (input : String) (t' : FileTree) : Prop :=
  ∃ old new, t.read? input = some old ∧ i.Rewrites old new ∧ t.write? (outputPath input i.outputDir) new = some t'

/-- What becomes of one input, and of the tree. -/
theorem run_convertInput (i : Invocation) (t : FileTree) (input : String) :
    ∃ events, (convertInput access i input).run t =
      match t.read? input with
      | none => (⟨.error (.file (.format .unreadable)), events⟩, t)
      | some bytes =>
        match ClassFile.ofBytes bytes with
        | .error e => (⟨.error (.file (.format e)), events⟩, t)
        | .ok c =>
          match (c.convert i.settings none false).value.result with
          | .error failure => (⟨.error (.method failure), events⟩, t)
          | .ok report =>
            match t.write? (outputPath input i.outputDir) (c.convert i.settings none false).value.classFile.toBytes with
            | none => (⟨.error (.file .unwritable), events⟩, t)
            | some t' => (⟨.ok report.failures.length, events⟩, t') := by
  unfold convertInput FileAccess.convert
  rw [run_bind, run_bind, run_readClass]
  dsimp only
  cases t.read? input with
  | none => exact ⟨_, rfl⟩
  | some bytes =>
    dsimp only
    cases ClassFile.ofBytes bytes with
    | error e => exact ⟨_, rfl⟩
    | ok c =>
      dsimp only
      cases (c.convert i.settings none false).value.result with
      | error failure => exact ⟨_, rfl⟩
      | ok report =>
        dsimp only
        rw [run_bind, run_write]
        dsimp only
        cases t.write? (outputPath input i.outputDir) (c.convert i.settings none false).value.classFile.toBytes with
        | none => exact ⟨_, rfl⟩
        | some t' => exact ⟨_, rfl⟩

theorem convertInput_done_iff : (((convertInput access i input).run t).1.value = .ok 0 ∧
    ((convertInput access i input).run t).2 = t') ↔ i.Converts t input t' := by
  obtain ⟨events, hrun⟩ := run_convertInput i t input
  rw [hrun]
  unfold Invocation.Converts Invocation.Rewrites
  cases t.read? input with
  | none => simp
  | some bytes =>
    cases hclass : ClassFile.ofBytes bytes with
    | error e => simp [hclass]
    | ok c =>
      cases hresult : (c.convert i.settings none false).value.result with
      | error failure => simp [hclass, hresult]
      | ok report =>
        cases hwrite : t.write? (outputPath input i.outputDir) (c.convert i.settings none false).value.classFile.toBytes with
        | none => simp [hclass, hresult, hwrite]
        | some u => simp [hclass, hresult, hwrite]

/-! ## All inputs -/

/-- The inputs are handled one after the other, each as a relation says. -/
inductive InTurn (D : FileTree → String → FileTree → Prop) : FileTree → List String → FileTree → Prop
  | nil (t : FileTree) : InTurn D t [] t
  | cons {t u t' : FileTree} {input : String} {rest : List String} (h : D t input u) (hrest : InTurn D u rest t') :
      InTurn D t (input :: rest) t'

/-- What is done with one input. -/
def handleInput (i : Invocation) (input : String) : StateM FileTree (Traced (Except FileFailure Nat)) :=
  if i.verifyOnly then verifyInput access i input else convertInput access i input

theorem run_handleInputs_cons (i : Invocation) (failed : Nat) (input : String) (rest : List String) (t : FileTree) :
    ∃ events, (handleInputs access i failed (input :: rest)).run t =
      match ((handleInput i input).run t).1.value with
      | .error e => (⟨.error e, events⟩, ((handleInput i input).run t).2)
      | .ok more =>
        let others := (handleInputs access i (failed + more) rest).run ((handleInput i input).run t).2
        (⟨others.1.value, events⟩, others.2) := by
  unfold handleInput
  rw [handleInputs]
  cases i.verifyOnly with
  | true =>
    rw [if_pos rfl, if_pos rfl, run_bind]
    dsimp only
    cases ((verifyInput access i input).run t).1.value with
    | error e => exact ⟨_, rfl⟩
    | ok more => exact ⟨_, rfl⟩
  | false =>
    rw [if_neg (by simp), if_neg (by simp), run_bind]
    dsimp only
    cases ((convertInput access i input).run t).1.value with
    | error e => exact ⟨_, rfl⟩
    | ok more => exact ⟨_, rfl⟩

/-- No method fails exactly if none fails at any input, one after the other. -/
theorem handleInputs_done_iff {D : FileTree → String → FileTree → Prop}
    (hD : ∀ t input t', (((handleInput i input).run t).1.value = .ok 0 ∧ ((handleInput i input).run t).2 = t') ↔ D t input t')
    (failed : Nat) (inputs : List String) (t t' : FileTree) :
    (((handleInputs access i failed inputs).run t).1.value = .ok 0 ∧
      ((handleInputs access i failed inputs).run t).2 = t') ↔ failed = 0 ∧ InTurn D t inputs t' := by
  induction inputs generalizing failed t with
  | nil =>
    have hrun : (handleInputs access i failed []).run t = (⟨.ok failed, []⟩, t) := rfl
    rw [hrun]
    constructor
    · rintro ⟨hfailed, rfl⟩
      exact ⟨Except.ok.inj hfailed, .nil t⟩
    · rintro ⟨rfl, hnil⟩
      cases hnil
      exact ⟨rfl, rfl⟩
  | cons input rest ih =>
    obtain ⟨events, hrun⟩ := run_handleInputs_cons i failed input rest t
    rw [hrun]
    cases hvalue : ((handleInput i input).run t).1.value with
    | error e =>
      refine ⟨fun h => absurd h.1 (by simp), ?_⟩
      rintro ⟨-, hturn⟩
      cases hturn with
      | cons h _ => exact absurd (hvalue.symm.trans ((hD _ _ _).mpr h).1) (by simp)
    | ok more =>
      dsimp only
      rw [ih]
      constructor
      · rintro ⟨hzero, hrest⟩
        obtain ⟨rfl, rfl⟩ := Nat.add_eq_zero_iff.mp hzero
        exact ⟨rfl, .cons ((hD _ _ _).mp ⟨hvalue, rfl⟩) hrest⟩
      · rintro ⟨rfl, hturn⟩
        cases hturn with
        | cons h hrest =>
          obtain ⟨hdone, rfl⟩ := (hD _ _ _).mpr h
          obtain rfl := Except.ok.inj (hvalue.symm.trans hdone)
          exact ⟨rfl, hrest⟩

/-! ## Verification of one input -/

theorem countFailures_eq_zero_iff {outcomes : List MethodOutcome} :
    countFailures i outcomes = .ok 0 ↔ ∀ o ∈ outcomes, ∃ verification, o.verdict.outcome = .ok verification := by
  unfold countFailures
  dsimp only
  split
  · rename_i failure rest hfailures
    refine ⟨fun h => ?_, fun h => ?_⟩
    · split at h <;> simp [hfailures] at h
    · obtain ⟨o, ho, hfailure⟩ := List.mem_filterMap.mp (hfailures ▸ List.mem_cons_self)
      obtain ⟨verification, hok⟩ := h o ho
      simp [hok] at hfailure
  · rename_i hfailures
    refine ⟨fun _ o ho => ?_, fun _ => rfl⟩
    have hnone := List.filterMap_eq_nil_iff.mp hfailures o ho
    cases houtcome : o.verdict.outcome with
    | error e => simp [houtcome] at hnone
    | ok verification => exact ⟨verification, rfl⟩

end CommandLine

namespace Policy

open Conversion

variable {policy : Policy} {recording keepGoing : Bool} {c : ClassFile}

theorem accepted_iff {m : Member} : (∃ code?, accepted policy recording c m = .ok code?) ↔
    ∀ verdict, (policy.verdictOn recording c m).value = some verdict → ∃ verification, verdict.outcome = .ok verification := by
  constructor
  · rintro ⟨code?, haccepted⟩ verdict hverdict
    cases houtcome : verdict.outcome with
    | ok verification => exact ⟨verification, rfl⟩
    | error e =>
      rw [verdictOn_eq_error.mp ⟨verdict, hverdict, houtcome⟩] at haccepted
      simp at haccepted
  · intro h
    cases haccepted : accepted policy recording c m with
    | ok code? => exact ⟨code?, rfl⟩
    | error e =>
      obtain ⟨verdict, hverdict, houtcome⟩ := verdictOn_eq_error.mpr haccepted
      obtain ⟨verification, hok⟩ := h verdict hverdict
      simp [houtcome] at hok

/-- Whether or not the verification goes on after failures, there are none exactly if all methods are accepted. -/
theorem verifyMethods_accepted_iff {methods : List (Member × Nat)} :
    (∀ o ∈ (policy.verifyMethods recording keepGoing c methods).value, ∃ verification,
      o.verdict.outcome = .ok verification) ↔
    ∀ method ∈ methods, ∃ code?, accepted policy recording c method.1 = .ok code? := by
  induction methods with
  | nil =>
    show (∀ o ∈ ([] : List MethodOutcome), _) ↔ _
    simp
  | cons method methods ih =>
    obtain ⟨m, index⟩ := method
    rw [verifyMethods, Traced.value_bind, List.forall_mem_cons, accepted_iff, ← ih]
    cases hverdict : (policy.verdictOn recording c m).value with
    | none => simp
    | some verdict =>
      dsimp only
      cases houtcome : verdict.outcome with
      | ok verification =>
        show (∀ o ∈ _ :: (policy.verifyMethods recording keepGoing c methods).value, _) ↔ _
        simp [houtcome]
      | error e =>
        cases keepGoing with
        | true =>
          show (∀ o ∈ _ :: (policy.verifyMethods recording true c methods).value, _) ↔ _
          simp [houtcome]
        | false =>
          show (∀ o ∈ [_], _) ↔ _
          simp [houtcome]

end Policy

/-- A method has no code, or its code is verified. -/
def Member.Verifies (m : Member) (c : ClassFile) : Prop :=
  m.code? c.constants = .ok none ∨ ∃ code method v, m.code? c.constants = .ok (some code) ∧
    Method.ofMember c m code = .ok method ∧ method.verify = .ok v

theorem Conversion.accepted_iff_verifies {policy : Policy} {recording : Bool} {c : ClassFile} {m : Member}
    (hpolicy : policy.checker? = none) : (∃ code?, accepted policy recording c m = .ok code?) ↔ m.Verifies c := by
  unfold accepted Member.Verifies
  cases m.code? c.constants with
  | error e => simp
  | ok code? =>
    cases code? with
    | none => simp
    | some code =>
      dsimp only
      rw [outcome_verifyMember hpolicy]
      cases hmethod : Method.ofMember c m code with
      | error e => simp [hmethod]
      | ok method => cases hverify : method.verify <;> simp [hmethod, hverify, Except.map, Except.mapError]

namespace CommandLine

open FileTree

variable {i : Invocation} {t t' : FileTree} {input : String}

/-- An input can be read, and all methods of the class in it that have code are verified. -/
def Verifies (t : FileTree) (input : String) : Prop :=
  ∃ bytes c, t.read? input = some bytes ∧ ClassFile.ofBytes bytes = .ok c ∧ ∀ m ∈ c.methods, m.Verifies c

/-- To verify an input does not change the tree. -/
theorem run_verifyInput (i : Invocation) (t : FileTree) (input : String) :
    ∃ events, (verifyInput access i input).run t =
      (⟨match t.read? input with
        | none => .error (.file (.format .unreadable))
        | some bytes =>
          match ClassFile.ofBytes bytes with
          | .error e => .error (.file (.format e))
          | .ok c => countFailures i ((i.settings.policy none).verifyClass false i.keepGoing c).value, events⟩, t) := by
  unfold verifyInput
  rw [run_bind, run_readClass]
  dsimp only
  cases t.read? input with
  | none => exact ⟨_, rfl⟩
  | some bytes =>
    dsimp only
    cases ClassFile.ofBytes bytes with
    | error e => exact ⟨_, rfl⟩
    | ok c => exact ⟨_, rfl⟩

theorem verifyInput_done_iff : ((verifyInput access i input).run t).1.value = .ok 0 ↔ Verifies t input := by
  obtain ⟨events, hrun⟩ := run_verifyInput i t input
  rw [hrun]
  unfold Verifies
  cases t.read? input with
  | none => simp
  | some bytes =>
    cases hclass : ClassFile.ofBytes bytes with
    | error e => simp [hclass]
    | ok c =>
      have hmethods : (∀ method ∈ c.methods.zipIdx, ∃ code?,
          Conversion.accepted (i.settings.policy none) false c method.1 = .ok code?) ↔ ∀ m ∈ c.methods, m.Verifies c := by
        rw [← List.forall_mem_map (f := Prod.fst) (P := fun m => ∃ code?,
          Conversion.accepted (i.settings.policy none) false c m = .ok code?), List.zipIdx_map_fst]
        exact forall₂_congr fun m _ => Conversion.accepted_iff_verifies rfl
      dsimp only
      rw [hclass]
      dsimp only
      rw [countFailures_eq_zero_iff, Policy.verifyClass, Policy.verifyMethods_accepted_iff, hmethods]
      constructor
      · intro h
        exact ⟨bytes, c, rfl, hclass, h⟩
      · rintro ⟨bytes', c', hbytes, hclass', h⟩
        obtain rfl := Option.some.inj hbytes
        obtain rfl := Except.ok.inj (hclass.symm.trans hclass')
        exact h

/-! ## What outputs hold at the end -/

theorem InTurn.split {D : FileTree → String → FileTree → Prop} {front rest : List String}
    (h : InTurn D t (front ++ input :: rest) t') : ∃ u w, InTurn D t front u ∧ D u input w ∧ InTurn D w rest t' := by
  induction front generalizing t with
  | nil =>
    cases h with
    | cons h hrest => exact ⟨t, _, .nil t, h, hrest⟩
  | cons first front ih =>
    cases h with
    | cons h hrest =>
      obtain ⟨u, w, hfront, hinput, hrest⟩ := ih hrest
      exact ⟨u, w, .cons h hfront, hinput, hrest⟩

section

variable {inputs : List String}

/-- Each output has a name. -/
theorem InTurn.named (h : InTurn i.Converts t inputs t') : ∀ input ∈ inputs, ∃ front name,
    components (outputPath input i.outputDir) = front ++ [name] ∧ IsName name := by
  induction h with
  | nil => simp
  | cons h _ ih =>
    obtain ⟨old, new, -, -, hwrite⟩ := h
    exact List.forall_mem_cons.mpr ⟨(written_of_write? hwrite).name, ih⟩

/-- Conversions change the files at the places of outputs and no others. -/
theorem InTurn.contents_eq (h : InTurn i.Converts t inputs t') {other : List String}
    (hother : ∀ input ∈ inputs, place (outputPath input i.outputDir) ≠ other) : t'.contents other = t.contents other := by
  induction h with
  | nil => rfl
  | cons h _ ih =>
    obtain ⟨hfirst, hrest⟩ := List.forall_mem_cons.mp hother
    obtain ⟨old, new, -, -, hwrite⟩ := h
    rw [ih hrest, (written_of_write? hwrite).contents, if_neg (Ne.symm hfirst)]

theorem InTurn.directoriesIn (h : InTurn i.Converts t inputs t') : t.DirectoriesIn t' := by
  induction h with
  | nil => exact fun _ h => h
  | cons h _ ih =>
    obtain ⟨old, new, -, -, hwrite⟩ := h
    exact (written_of_write? hwrite).directories.trans ih

end

/-- The last of the inputs with outputs at some place decides what is in the file there at the end.  What it was converted
from was there from the start, unless an output was written over it; then it has been at that place too. -/
theorem InTurn.last_output {front rest : List String} (h : InTurn i.Converts t (front ++ input :: rest) t')
    (hlast : ∀ later ∈ rest, place (outputPath later i.outputDir) ≠ place (outputPath input i.outputDir)) :
    ∃ old new, i.Rewrites old new ∧ t'.read? (outputPath input i.outputDir) = some new ∧
      (t.contents (place input) = some old ∨ place input = place (outputPath input i.outputDir) ∧
        ∃ earlier ∈ front, place (outputPath earlier i.outputDir) = place (outputPath input i.outputDir)) := by
  obtain ⟨u, w, hfront, ⟨old, new, hread, hrewrites, hwrite⟩, hrest⟩ := h.split
  obtain ⟨-, -, hold⟩ := read?_eq_some_iff.mp hread
  obtain ⟨husable, hwalk, hnew⟩ := read?_eq_some_iff.mp (written_of_write? hwrite).read
  refine ⟨old, new, hrewrites, ?_, ?_⟩
  · exact read?_eq_some_iff.mpr ⟨husable, hrest.directoriesIn.walk hwalk, (hrest.contents_eq hlast).trans hnew⟩
  · by_cases hover : ∃ earlier ∈ front, place (outputPath earlier i.outputDir) = place input
    · obtain ⟨earlier, hearlier, hplace⟩ := hover
      have hsame := place_outputPath_eq (hfront.named earlier hearlier) hplace
      exact Or.inr ⟨(hsame.trans hplace).symm, earlier, hearlier, hsame.symm⟩
    · push Not at hover
      exact Or.inl ((hfront.contents_eq hover).symm.trans hold)

theorem InTurn.own_output {front rest : List String} (h : InTurn i.Converts t (front ++ input :: rest) t')
    (hown : ∀ other ∈ front ++ rest, place (outputPath other i.outputDir) ≠ place (outputPath input i.outputDir)) :
    ∃ old new, t.contents (place input) = some old ∧ i.Rewrites old new ∧
      t'.read? (outputPath input i.outputDir) = some new := by
  obtain ⟨old, new, hrewrites, hread, hsource | ⟨-, earlier, hearlier, hshared⟩⟩ :=
    h.last_output fun later hlater => hown later (List.mem_append_right _ hlater)
  · exact ⟨old, new, hsource, hrewrites, hread⟩
  · exact absurd hshared (hown earlier (List.mem_append_left _ hearlier))

/-! ## Whole runs -/

theorem converts_iff (hmode : i.verifyOnly = false) (t : FileTree) (input : String) (t' : FileTree) :
    (((handleInput i input).run t).1.value = .ok 0 ∧ ((handleInput i input).run t).2 = t') ↔ i.Converts t input t' := by
  rw [handleInput, if_neg (by simp [hmode])]
  exact convertInput_done_iff

theorem handleInput_kept (hmode : i.verifyOnly = true) (t : FileTree) (input : String) :
    ((handleInput i input).run t).2 = t := by
  obtain ⟨events, hrun⟩ := run_verifyInput i t input
  rw [handleInput, if_pos hmode, hrun]

theorem verifies_iff (hmode : i.verifyOnly = true) (t : FileTree) (input : String) (t' : FileTree) :
    (((handleInput i input).run t).1.value = .ok 0 ∧ ((handleInput i input).run t).2 = t') ↔ t = t' ∧ Verifies t input := by
  rw [handleInput_kept hmode, handleInput, if_pos hmode, verifyInput_done_iff, and_comm]

theorem handleInputs_kept (hmode : i.verifyOnly = true) (failed : Nat) (inputs : List String) (t : FileTree) :
    ((handleInputs access i failed inputs).run t).2 = t := by
  induction inputs generalizing failed with
  | nil => rfl
  | cons input rest ih =>
    obtain ⟨events, hrun⟩ := run_handleInputs_cons i failed input rest t
    rw [hrun, handleInput_kept hmode]
    cases ((handleInput i input).run t).1.value with
    | error e => rfl
    | ok more => exact ih (failed + more)

theorem inTurn_verifies_iff {inputs : List String} :
    InTurn (fun t input t' => t = t' ∧ Verifies t input) t inputs t ↔ ∀ input ∈ inputs, Verifies t input := by
  induction inputs with
  | nil => exact iff_of_true (.nil t) (by simp)
  | cons input rest ih =>
    rw [List.forall_mem_cons, ← ih]
    constructor
    · intro h
      cases h with
      | cons h hrest =>
        obtain ⟨rfl, hverifies⟩ := h
        exact ⟨hverifies, hrest⟩
    · rintro ⟨hverifies, hrest⟩
      exact .cons ⟨rfl, hverifies⟩ hrest

theorem run_run {arguments : List String} (hparse : parse arguments = .ok (.run i)) (t : FileTree) :
    (((run access arguments).run t).1.value.exitCode = 0 ↔
      ((handleInputs access i 0 i.inputs).run t).1.value = .ok 0) ∧
    ((run access arguments).run t).2 = ((handleInputs access i 0 i.inputs).run t).2 := by
  unfold run
  rw [hparse]
  dsimp only
  rw [run_bind]
  cases ((handleInputs access i 0 i.inputs).run t).1.value with
  | error e => exact ⟨iff_of_false (show (Ending.failed e).exitCode ≠ 0 by simp [Ending.exitCode]) (by simp), rfl⟩
  | ok failed =>
    cases failed with
    | zero => exact ⟨iff_of_true (show Ending.done.exitCode = 0 from rfl) rfl, rfl⟩
    | succ more =>
      exact ⟨iff_of_false (show (Ending.incomplete (more + 1)).exitCode ≠ 0 by simp [Ending.exitCode]) (by simp), rfl⟩

/-- What inputs and the tree are like if they are handled successfully, and what is left of the tree. -/
structure Invocation.Leaves (i : Invocation) (t : FileTree) (done : Prop) (t' : FileTree) : Prop where
  /-- A tree has places for relative paths only, so no file is found by another one. -/
  relative : done → ∀ input ∈ i.inputs, input.startsWith "/" = false ∧
    (i.verifyOnly = false → (outputPath input i.outputDir).startsWith "/" = false)
  done_iff : i.verifyOnly = false → (done ↔ InTurn i.Converts t i.inputs t')
  /-- An output that no other input shares holds what the class in the input at the start was converted to. -/
  own : i.verifyOnly = false → done → ∀ front input rest, i.inputs = front ++ input :: rest →
    (∀ other ∈ front ++ rest, place (outputPath other i.outputDir) ≠ place (outputPath input i.outputDir)) →
    ∃ old new, t.contents (place input) = some old ∧ i.Rewrites old new ∧
      t'.read? (outputPath input i.outputDir) = some new
  /-- Of inputs that share an output the last one decides what it holds. -/
  last : i.verifyOnly = false → done → ∀ front input rest, i.inputs = front ++ input :: rest →
    (∀ later ∈ rest, place (outputPath later i.outputDir) ≠ place (outputPath input i.outputDir)) →
    ∃ old new, i.Rewrites old new ∧ t'.read? (outputPath input i.outputDir) = some new ∧
      (t.contents (place input) = some old ∨ place input = place (outputPath input i.outputDir) ∧
        ∃ earlier ∈ front, place (outputPath earlier i.outputDir) = place (outputPath input i.outputDir))
  others : i.verifyOnly = false → done → ∀ other, (∀ input ∈ i.inputs, place (outputPath input i.outputDir) ≠ other) →
    t'.contents other = t.contents other
  kept : i.verifyOnly = true → t' = t
  verified_iff : i.verifyOnly = true → (done ↔ ∀ input ∈ i.inputs, Verifies t input)

theorem not_startsWith_of_read? {bytes : List UInt8} (h : t.read? input = some bytes) : input.startsWith "/" = false := by
  have husable := (read?_eq_some_iff.mp h).1
  simp only [isUsable, Bool.and_eq_true, Bool.not_eq_true'] at husable
  exact husable.1.1.1

theorem InTurn.relative {inputs : List String} (h : InTurn i.Converts t inputs t') : ∀ input ∈ inputs,
    input.startsWith "/" = false ∧ (outputPath input i.outputDir).startsWith "/" = false := by
  induction h with
  | nil => simp
  | cons h _ ih =>
    obtain ⟨old, new, hread, -, hwrite⟩ := h
    exact List.forall_mem_cons.mpr
      ⟨⟨not_startsWith_of_read? hread, not_startsWith_of_read? (written_of_write? hwrite).read⟩, ih⟩

theorem handleInputs_leaves (i : Invocation) (t : FileTree) :
    i.Leaves t (((handleInputs access i 0 i.inputs).run t).1.value = .ok 0)
      ((handleInputs access i 0 i.inputs).run t).2 := by
  have hdone : i.verifyOnly = false → (((handleInputs access i 0 i.inputs).run t).1.value = .ok 0 ↔
      InTurn i.Converts t i.inputs ((handleInputs access i 0 i.inputs).run t).2) := by
    intro hmode
    have hiff := handleInputs_done_iff (converts_iff hmode) 0 i.inputs t ((handleInputs access i 0 i.inputs).run t).2
    rwa [and_iff_left rfl, and_iff_right rfl] at hiff
  have hverified : i.verifyOnly = true → (((handleInputs access i 0 i.inputs).run t).1.value = .ok 0 ↔
      ∀ input ∈ i.inputs, Verifies t input) := by
    intro hmode
    have hiff := handleInputs_done_iff (verifies_iff hmode) 0 i.inputs t t
    rw [and_iff_left (handleInputs_kept hmode 0 i.inputs t)] at hiff
    rw [hiff, and_iff_right rfl]
    exact inTurn_verifies_iff
  refine ⟨fun hzero input hinput => ?_, hdone, ?_, ?_, ?_, fun hmode => handleInputs_kept hmode 0 i.inputs t, hverified⟩
  · cases hmode : i.verifyOnly with
    | false =>
      obtain ⟨hrelative, houtput⟩ := ((hdone hmode).mp hzero).relative input hinput
      exact ⟨hrelative, fun _ => houtput⟩
    | true =>
      obtain ⟨bytes, c, hread, -⟩ := (hverified hmode).mp hzero input hinput
      exact ⟨not_startsWith_of_read? hread, by simp⟩
  · intro hmode hzero front input rest hinputs
    exact InTurn.own_output (hinputs ▸ (hdone hmode).mp hzero)
  · intro hmode hzero front input rest hinputs
    exact InTurn.last_output (hinputs ▸ (hdone hmode).mp hzero)
  · intro hmode hzero other hother
    exact ((hdone hmode).mp hzero).contents_eq hother

/-- **A successful run loses no output, unless two inputs share it.**  The run is successful exactly if the inputs can be
converted one after the other.  Then the output of every input that has an output of its own holds what the class in the
input at the start was converted to; of inputs that share an output the last one decides what the output holds; and no file
that is not an output has changed.  When the inputs are only verified, nothing changes, and the run is successful exactly
if all inputs can be read and all their methods with code are verified.  All this holds of every invocation, and so of
those that arguments are parsed to. -/
theorem successful_run_outputs (t : FileTree) :
    (∀ i : Invocation, i.Leaves t (((handleInputs access i 0 i.inputs).run t).1.value = .ok 0)
      ((handleInputs access i 0 i.inputs).run t).2) ∧
    ∀ (arguments : List String) (i : Invocation), parse arguments = .ok (.run i) →
      i.Leaves t (((run access arguments).run t).1.value.exitCode = 0) ((run access arguments).run t).2 := by
  refine ⟨fun i => handleInputs_leaves i t, fun arguments i hparse => ?_⟩
  obtain ⟨hexit, htree⟩ := run_run hparse t
  rw [hexit, htree]
  exact handleInputs_leaves i t

/-! Two files of one name in different directories, and a third one. -/

/-- A class without members, of some minor version. -/
def smallClass (minor : UInt8) : List UInt8 :=
  [0xca, 0xfe, 0xba, 0xbe, 0x00, minor, 0x00, 0x31, 0x00, 0x01] ++ List.replicate 14 0x00

def threeFiles : FileTree where
  files := [(["a", "X.class"], smallClass 1), (["b", "X.class"], smallClass 2), (["c", "Y.class"], smallClass 3)]
  directories := [["a"], ["b"], ["c"]]

def intoOneDirectory : Invocation := { outputDir := some "out", inputs := ["a/X.class", "c/Y.class", "b/X.class"] }

/-- The run is successful, and the third file has its output.  Of the two files of one name only the second one has: what
the first one was converted to is lost. -/
theorem output_lost_threeFiles :
    let arguments := ["-o", "out", "a/X.class", "c/Y.class", "b/X.class"]
    let t' := ((run access arguments).run threeFiles).2
    parse arguments = .ok (.run intoOneDirectory) ∧ ((run access arguments).run threeFiles).1.value.exitCode = 0 ∧
      (∃ old new, threeFiles.contents (place "c/Y.class") = some old ∧ intoOneDirectory.Rewrites old new ∧
        t'.read? "out/Y.class" = some new) ∧
      (∃ old new, threeFiles.contents (place "b/X.class") = some old ∧ intoOneDirectory.Rewrites old new ∧
        t'.read? "out/X.class" = some new) ∧
      intoOneDirectory.Rewrites (smallClass 1) (smallClass 1) ∧ t'.read? "out/X.class" ≠ some (smallClass 1) ∧
      t'.contents (place "a/X.class") = threeFiles.contents (place "a/X.class") := by
  intro arguments t'
  have hparse : parse arguments = .ok (.run intoOneDirectory) := by decide +kernel
  have hzero : ((run access arguments).run threeFiles).1.value.exitCode = 0 := by decide +kernel
  have hrewrites : (ClassFile.ofBytes (smallClass 1)).toOption.any (fun c =>
      (c.convert intoOneDirectory.settings none false).value.result.toOption.any fun report => report.failures = [] ∧
        smallClass 1 = (c.convert intoOneDirectory.settings none false).value.classFile.toBytes) = true := by
    decide +kernel
  simp only [Option.any_eq_true, decide_eq_true_eq, toOption_eq_some] at hrewrites
  obtain ⟨c, hc, report, hreport, hfailures, hbytes⟩ := hrewrites
  have hx : outputPath "b/X.class" intoOneDirectory.outputDir = "out/X.class" := by decide +kernel
  have hy : outputPath "c/Y.class" intoOneDirectory.outputDir = "out/Y.class" := by decide +kernel
  have hleaves := (successful_run_outputs threeFiles).2 arguments intoOneDirectory hparse
  refine ⟨hparse, hzero, ?_, ?_, ⟨c, report, hc, hreport, hfailures, hbytes⟩, by decide +kernel, ?_⟩
  · rw [← hy]
    exact hleaves.own rfl hzero ["a/X.class"] "c/Y.class" ["b/X.class"] rfl (by decide +kernel)
  · obtain ⟨old, new, hrewrites, hread, hsource | ⟨hover, -⟩⟩ :=
      hleaves.last rfl hzero ["a/X.class", "c/Y.class"] "b/X.class" [] rfl (by simp)
    · exact ⟨old, new, hsource, hrewrites, hx ▸ hread⟩
    · exact absurd hover (by decide +kernel)
  · exact hleaves.others rfl hzero (place "a/X.class") (by decide +kernel)

end CommandLine

end Bytecode
