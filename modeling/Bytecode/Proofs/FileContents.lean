import Bytecode.FileTree
import Mathlib.Data.List.Basic

/-!
# What is in the files of a tree

A path leads to a place (`FileTree.place`), and what can be read by the path is what is in the file there
(`FileTree.read?_eq_some_iff`).  To write a file changes what is in the file at its place and nothing else; directories may
come to the tree, but none goes away.  Then the file can be read by the path it was written by
(`FileTree.written_of_write?`).
-/

namespace Bytecode

/-- What lies between separators has none. -/
theorem not_mem_of_mem_splitOn {α : Type} [BEq α] [LawfulBEq α] {a : α} {as part : List α} (h : part ∈ as.splitOn a) :
    a ∉ part := by
  induction as generalizing part with
  | nil =>
    rw [List.splitOn_nil, List.mem_singleton] at h
    simp [h]
  | cons b as ih =>
    rw [List.splitOn_cons_eq_if_modifyHead] at h
    split at h
    · rcases List.mem_cons.mp h with rfl | hrest
      · simp
      · exact ih hrest
    · rename_i hne
      cases hparts : as.splitOn a with
      | nil => simp [hparts] at h
      | cons first rest =>
        rw [hparts, List.modifyHead_cons] at h
        rw [hparts] at ih
        rcases List.mem_cons.mp h with rfl | hrest
        · have hfirst := ih List.mem_cons_self
          simp only [beq_iff_eq] at hne
          simp [hfirst, Ne.symm hne]
        · exact ih (List.mem_cons_of_mem _ hrest)

namespace FileTree

variable {t t' u : FileTree} {path : String} {bytes : List UInt8}

/-! ## Places -/

/-- The place that a path leads to. -/
def place (path : String) : List String := (components path).foldl next []

/-- A component that leads to another place. -/
def moves (component : String) : Bool := component != "" && component != "."

/-- A component that is the name of a file or a directory. -/
def IsName (name : String) : Prop := moves name = true ∧ name ≠ ".."

theorem next_of_not_moves {place : List String} {component : String} (h : moves component = false) :
    next place component = place := by
  unfold next
  rw [if_pos]
  simpa [moves, Decidable.or_iff_not_imp_left] using h

theorem IsName.next {name : String} (h : IsName name) (place : List String) : next place name = place ++ [name] := by
  obtain ⟨hmoves, hup⟩ := h
  unfold FileTree.next
  rw [if_neg (by simpa [moves] using hmoves), if_neg hup]

/-- Only components that move matter for where a path leads to. -/
theorem foldl_next_filter (place : List String) (components : List String) :
    components.foldl next place = (components.filter moves).foldl next place := by
  induction components generalizing place with
  | nil => rfl
  | cons component rest ih =>
    cases hmoves : moves component with
    | true => rw [List.filter_cons_of_pos hmoves, List.foldl_cons, List.foldl_cons, ih]
    | false => rw [List.filter_cons_of_neg (by simp [hmoves]), List.foldl_cons, next_of_not_moves hmoves, ih]

theorem not_mem_of_mem_components {name : String} (h : name ∈ components path) : '/' ∉ name.toList := by
  obtain ⟨chars, hchars, rfl⟩ := List.mem_map.mp h
  rw [String.toList_ofList]
  exact not_mem_of_mem_splitOn hchars

/-- The components of a path to something in a directory. -/
theorem components_append {name : String} (dir : String) (h : '/' ∉ name.toList) :
    components (dir ++ "/" ++ name) = components dir ++ [name] := by
  have hchars : (dir ++ "/" ++ name).toList = dir.toList ++ '/' :: name.toList := by simp
  unfold components
  rw [hchars, List.splitOn_append_cons_self, List.splitOn_eq_singleton h]
  simp

theorem place_append {name : String} (dir : String) (h : '/' ∉ name.toList) (hname : IsName name) :
    place (dir ++ "/" ++ name) = place dir ++ [name] := by
  unfold place
  rw [components_append dir h, List.foldl_append]
  exact hname.next _

/-- A slash at the end of a path does not matter for where it leads to. -/
theorem place_slash (dir : String) : place (dir ++ "/") = place dir := by
  have hempty : dir ++ "/" = dir ++ "/" ++ "" := by simp
  unfold place
  rw [hempty, components_append dir (by simp), List.foldl_append]
  exact next_of_not_moves (show moves "" = false by decide)

/-! ## Looking up -/

/-- What is in the file at a place. -/
def contents (t : FileTree) (place : List String) : Option (List UInt8) :=
  (t.files.find? fun file => file.1 == place).map (·.2)

theorem walk_eq_some {components place goal : List String} (h : t.walk place components = some goal) :
    goal = components.foldl next place := by
  induction components generalizing place with
  | nil => exact (Option.some.inj h).symm
  | cons component rest ih =>
    unfold walk at h
    split at h
    · exact ih h
    · simp at h

theorem read?_eq_some_iff : t.read? path = some bytes ↔
    isUsable path = true ∧ t.walk [] (components path) = some (place path) ∧ t.contents (place path) = some bytes := by
  unfold read?
  split
  · rename_i husable
    cases hwalk : t.walk [] (components path) with
    | none => simp
    | some goal =>
      obtain rfl := walk_eq_some hwalk
      simp only [husable, true_and]
      exact ⟨fun hfound => ⟨rfl, hfound⟩, fun hfound => hfound.2⟩
  · rename_i husable
    simp [husable]

/-! ## Growing -/

/-- All directories of a tree are in another one. -/
def DirectoriesIn (t u : FileTree) : Prop := ∀ place, t.isDirectory place = true → u.isDirectory place = true

theorem DirectoriesIn.trans {t u w : FileTree} (h : t.DirectoriesIn u) (k : u.DirectoriesIn w) : t.DirectoriesIn w :=
  fun place hplace => k place (h place hplace)

theorem DirectoriesIn.walk {components place goal : List String} (h : t.DirectoriesIn u)
    (hwalk : t.walk place components = some goal) : u.walk place components = some goal := by
  induction components generalizing place with
  | nil => exact hwalk
  | cons component rest ih =>
    unfold FileTree.walk at hwalk ⊢
    split at hwalk
    · rename_i hdirectory
      rw [if_pos (h place hdirectory)]
      exact ih hwalk
    · simp at hwalk

theorem walk_append {front rest place middle : List String} (h : t.walk place front = some middle) :
    t.walk place (front ++ rest) = t.walk middle rest := by
  induction front generalizing place with
  | nil =>
    obtain rfl := Option.some.inj h
    rfl
  | cons component front ih =>
    unfold walk at h
    split at h
    · rename_i hdirectory
      rw [List.cons_append, walk, if_pos hdirectory]
      exact ih h
    · simp at h

theorem makeDirectory_spec (t : FileTree) (place : List String) :
    (t.makeDirectory place).files = t.files ∧ t.DirectoriesIn (t.makeDirectory place) ∧
      (t.makeDirectory place).isDirectory place = true := by
  unfold makeDirectory
  split
  · rename_i hdirectory
    exact ⟨rfl, fun _ h => h, hdirectory⟩
  · refine ⟨rfl, ?_, by simp [isDirectory]⟩
    intro other hother
    unfold isDirectory at hother ⊢
    rcases (Bool.or_eq_true _ _).mp hother with habove | hmem
    · simp [habove]
    · simp only [List.contains_iff_mem] at hmem
      simp [hmem]

/-- Making the directories on the way changes no file, and then they are there. -/
theorem makeDirectories_spec {components place goal : List String} (hplace : t.isDirectory place = true)
    (h : t.makeDirectories place components = some (t', goal)) :
    t'.files = t.files ∧ t.DirectoriesIn t' ∧ goal = components.foldl next place ∧
      t'.walk place components = some goal ∧ t'.isDirectory goal = true := by
  induction components generalizing t place with
  | nil =>
    obtain ⟨rfl, rfl⟩ := Prod.mk.inj (Option.some.inj h)
    exact ⟨rfl, fun _ h => h, rfl, rfl, hplace⟩
  | cons component rest ih =>
    unfold makeDirectories at h
    dsimp only at h
    split at h
    · simp at h
    · obtain ⟨hfiles, hin, hthere⟩ := makeDirectory_spec t (next place component)
      obtain ⟨hfiles', hin', hgoal, hwalk, hgoal'⟩ := ih hthere h
      refine ⟨hfiles'.trans hfiles, hin.trans hin', hgoal, ?_, hgoal'⟩
      unfold walk
      rw [if_pos (hin' _ (hin _ hplace))]
      exact hwalk

/-! ## Writing -/

/-- A file with other contents, if it is at a place. -/
def refill (place : List String) (bytes : List UInt8) (file : List String × List UInt8) : List String × List UInt8 :=
  if file.1 = place then (file.1, bytes) else (file.1, file.2)

theorem refill_fst (place : List String) (bytes : List UInt8) (file : List String × List UInt8) :
    (refill place bytes file).1 = file.1 := by
  unfold refill
  split <;> rfl

/-- What is in files once one was put at a place. -/
theorem contents_put (t : FileTree) (place : List String) (bytes : List UInt8) (other : List String) :
    (t.put place bytes).contents other = if other = place then some bytes else t.contents other := by
  unfold put
  split
  · rename_i hfile
    -- the file is replaced where it is
    obtain ⟨file, hmem, hplace⟩ := List.any_eq_true.mp hfile
    change ((t.files.map (refill place bytes)).find? fun file => file.1 == other).map (·.2) = _
    rw [List.find?_map, Option.map_map]
    simp only [Function.comp_def, refill_fst]
    unfold contents
    cases hfind : t.files.find? fun file => file.1 == other with
    | none =>
      rw [if_neg]
      · rfl
      · rintro rfl
        exact List.find?_eq_none.mp hfind file hmem hplace
    | some found =>
      obtain rfl : found.1 = other := by simpa using List.find?_some hfind
      simp only [Option.map_some, refill]
      split <;> rfl
  · rename_i hfile
    unfold contents
    rw [List.find?_append, List.find?_singleton]
    by_cases hother : other = place
    · subst hother
      have hnone : t.files.find? (fun file => file.1 == other) = none := by
        rw [List.find?_eq_none]
        intro file hmem hplace
        exact hfile (List.any_eq_true.mpr ⟨file, hmem, hplace⟩)
      simp [hnone]
    · simp [hother, Ne.symm hother]

theorem directoriesIn_put (t : FileTree) (place : List String) (bytes : List UInt8) : t.DirectoriesIn (t.put place bytes) := by
  unfold put
  split
  · exact fun _ h => h
  · exact fun _ h => h

/-- What a tree is like once a file was written. -/
structure Written (t : FileTree) (path : String) (bytes : List UInt8) (t' : FileTree) : Prop where
  contents : ∀ other, t'.contents other = if other = place path then some bytes else t.contents other
  directories : t.DirectoriesIn t'
  read : t'.read? path = some bytes
  /-- The path ends with the name of the file. -/
  name : ∃ front name, components path = front ++ [name] ∧ IsName name

theorem written_of_write? (h : t.write? path bytes = some t') : t.Written path bytes t' := by
  unfold write? at h
  split at h
  · simp at h
  · rename_i name front hreverse
    have hcomponents : components path = front.reverse ++ [name] := by
      rw [← List.reverse_reverse (components path), hreverse, List.reverse_cons]
    split at h
    · simp at h
    · rename_i hcheck
      simp only [Bool.or_eq_true, Bool.not_eq_true', decide_eq_true_eq, not_or, Bool.not_eq_false] at hcheck
      obtain ⟨⟨⟨husable, hempty⟩, hdot⟩, hup⟩ := hcheck
      have hname : IsName name := ⟨by simp [moves, hempty, hdot], hup⟩
      obtain ⟨⟨u, goal⟩, hmake, hput⟩ := Option.bind_eq_some_iff.mp h
      obtain ⟨hfiles, hin, hgoal, hwalk, hthere⟩ := makeDirectories_spec (by simp [isDirectory, isAtOrAbove]) hmake
      dsimp only at hput
      split at hput
      · simp at hput
      · obtain rfl := Option.some.inj hput
        have hplace : place path = goal ++ [name] := by
          unfold place
          rw [hcomponents, List.foldl_append, ← hgoal]
          exact hname.next goal
        have hcontents : ∀ other, (u.put (goal ++ [name]) bytes).contents other =
            if other = place path then some bytes else t.contents other := by
          intro other
          rw [contents_put, hplace]
          unfold contents
          rw [hfiles]
        have hput : u.DirectoriesIn (u.put (goal ++ [name]) bytes) := directoriesIn_put u _ bytes
        refine ⟨hcontents, hin.trans hput, ?_, front.reverse, name, hcomponents, hname⟩
        refine read?_eq_some_iff.mpr ⟨husable, ?_, by rw [hcontents, if_pos rfl]⟩
        rw [hcomponents, walk_append (hput.walk hwalk), walk, if_pos (hput goal hthere), hname.next, hplace]
        rfl

end FileTree

end Bytecode
