/-!
# Files

A tree of files as seen from one directory.  Paths are relative to it, with components apart by `/`.  Writing a
file makes the directories on the way, which stay even when there is no file in them.  Above the directory
itself there are other directories, of which nothing more is known.

`FileAccess` is what a program needs of a file system, so that it runs on such trees as well as on others.
-/

namespace Bytecode

/-- Reading and writing of files by path. -/
structure FileAccess (m : Type → Type) where
  /-- Contents of a file, if it can be read. -/
  read : String → m (Option (List UInt8))
  /-- Write a file and the directories on the way; was it possible? -/
  write : String → List UInt8 → m Bool

/-- Files and directories, each at its place: the names that lead to it, after a `..` for every step up. -/
structure FileTree where
  files : List (List String × List UInt8)
  /-- Directories below the directory itself. -/
  directories : List (List String)
  deriving DecidableEq, Repr

namespace FileTree

/-- Only the directory itself. -/
def empty : FileTree := ⟨[], []⟩

/-! ## Paths -/

/-- Components of a path. -/
def components (path : String) : List String := (path.toList.splitOn '/').map String.ofList

/-- Path with these components. -/
def pathOf (place : List String) : String := "/".intercalate place

/-- Greatest number of bytes of a name. -/
def maxNameSize : Nat := 255

/-- Greatest number of bytes of a path. -/
def maxPathSize : Nat := 4095

/-- Can a path stand for a file?  It is relative, neither the path nor a name in it is too long, and there is
no null character in it. -/
def isUsable (path : String) : Bool :=
  !path.startsWith "/" && !path.toList.contains (Char.ofNat 0) && path.utf8ByteSize ≤ maxPathSize &&
    (components path).all fun name => name.utf8ByteSize ≤ maxNameSize

/-- The directory itself, or one above it. -/
def isAtOrAbove (place : List String) : Bool := place.all (· == "..")

/-- The directory around a place. -/
def up (place : List String) : List String :=
  if isAtOrAbove place then place ++ [".."] else place.dropLast

/-- Where a component leads to from a place. -/
def next (place : List String) (component : String) : List String :=
  if component = "" || component = "." then place
  else if component = ".." then up place
  else place ++ [component]

/-! ## Looking up -/

def isFile (t : FileTree) (place : List String) : Bool := t.files.any fun (p, _) => p == place

def isDirectory (t : FileTree) (place : List String) : Bool :=
  isAtOrAbove place || t.directories.contains place

/-- Go on from a place by the components of a path; a directory must be there before each of them. -/
def walk (t : FileTree) (place : List String) : List String → Option (List String)
  | [] => some place
  | component :: rest =>
    if t.isDirectory place then t.walk (next place component) rest else none

/-- Contents of a file. -/
def read? (t : FileTree) (path : String) : Option (List UInt8) :=
  if isUsable path then do
    let place ← t.walk [] (components path)
    (t.files.find? fun (p, _) => p == place).map (·.2)
  else none

/-! ## Writing -/

/-- Put a file at a place. -/
def put (t : FileTree) (place : List String) (bytes : List UInt8) : FileTree :=
  if t.isFile place then
    { t with files := t.files.map fun (p, old) => if p = place then (p, bytes) else (p, old) }
  else { t with files := t.files ++ [(place, bytes)] }

/-- Make a directory, unless it is there. -/
def makeDirectory (t : FileTree) (place : List String) : FileTree :=
  if t.isDirectory place then t else { t with directories := t.directories ++ [place] }

/-- Go on from a place by the components of a path, making the directories on the way; a file must not be in
the way.  Gives the tree and the place that is reached. -/
def makeDirectories (t : FileTree) (place : List String) :
    List String → Option (FileTree × List String)
  | [] => some (t, place)
  | component :: rest =>
    let place := next place component
    if t.isFile place then none else (t.makeDirectory place).makeDirectories place rest

/-- Write a file, with the directories on the way.  The last component must be the name of the file. -/
def write? (t : FileTree) (path : String) (bytes : List UInt8) : Option FileTree :=
  match (components path).reverse with
  | [] => none
  | name :: directory =>
    if !isUsable path || name = "" || name = "." || name = ".." then none
    else do
      let (t, place) ← t.makeDirectories [] directory.reverse
      let place := place ++ [name]
      if t.isDirectory place then none else some (t.put place bytes)

/-- A tree of files by their paths. -/
def ofFiles (files : List (String × List UInt8)) : FileTree :=
  files.foldl (fun t (path, bytes) => (t.write? path bytes).getD t) empty

/-- Files in the directory by their paths; those above it are not among them. -/
def toFiles (t : FileTree) : List (String × List UInt8) :=
  (t.files.filter fun (place, _) => place.head? != some "..").map fun (place, bytes) =>
    (pathOf place, bytes)

/-- Programs that change a tree of files. -/
def access : FileAccess (StateM FileTree) where
  read path := return (← get).read? path
  write path bytes := do
    match (← get).write? path bytes with
    | some t => set t; return true
    | none => return false

end FileTree

end Bytecode
