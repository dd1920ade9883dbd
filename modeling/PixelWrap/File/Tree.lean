import PixelWrap.File.Path

/-!
# Directories and files

A tree of files is a map from places to what is there.  A place is the list of the
names that lead from the root to it.  Paths are followed step by step from the root
or from the working directory.

## Main definitions

* `Content`, `Node`: what can be at a place.
* `FileError`: why an operation fails.
* `FileTree`: a tree of files and its working directory.
* `FileTree.readText`, `FileTree.isDir`: look at the tree.
* `FileTree.createDirs`, `FileTree.write`: change it.
* `FileTree.Attempt`: the outcome of a change that can stop halfway.
-/

namespace PixelWrap

/-- The content of a file. -/
inductive Content where
  /-- Bytes that are text. -/
  | text (t : Text)
  /-- Other bytes. -/
  | bytes (b : List UInt8)
  deriving DecidableEq, Repr

/-- What can be at a place. -/
inductive Node where
  /-- A directory. -/
  | dir
  /-- A file. -/
  | file (content : Content)
  deriving DecidableEq, Repr

/-- Why an operation on files fails. -/
inductive FileError where
  /-- There is nothing at that place. -/
  | notFound
  /-- There is something at that place already. -/
  | alreadyExists
  /-- A step of the path is not a directory. -/
  | notDirectory
  /-- There is a directory at that place. -/
  | isDirectory
  /-- The path or a step of it is too long. -/
  | nameTooLong
  /-- The path is no path for the system. -/
  | nulInName
  /-- The file holds no text. -/
  | invalidText
  deriving DecidableEq, Repr

/-- The error in words. -/
def FileError.message : FileError → String
  | .notFound => "No such file or directory (os error 2)"
  | .alreadyExists => "File exists (os error 17)"
  | .notDirectory => "Not a directory (os error 20)"
  | .isDirectory => "Is a directory (os error 21)"
  | .nameTooLong => "File name too long (os error 36)"
  | .nulInName => "file name contained an unexpected NUL byte"
  | .invalidText => "stream did not contain valid UTF-8"

/-- A place in a tree: the names that lead from the root to it. -/
abbrev TreePlace := List String

/-- Directories and files, and a working directory. -/
structure FileTree where
  /-- The working directory. -/
  cwd : TreePlace
  /-- What is at each place.  The root is a directory and is not listed. -/
  entries : List (TreePlace × Node)
  deriving DecidableEq, Repr

namespace FileTree

/-! ### Places -/

/-- What is at a place. -/
def node? (t : FileTree) (place : TreePlace) : Option Node :=
  if place = [] then some .dir else t.entries.lookup place

/-- The tree with something else at a place. -/
def set (t : FileTree) (place : TreePlace) (n : Node) : FileTree :=
  { t with entries := (place, n) :: t.entries.filter (·.1 ≠ place) }

/-- The place where following a path starts. -/
def start (t : FileTree) (path : String) : TreePlace :=
  if Path.isAbsolute path then [] else t.cwd

/-- The place that one step leads to. -/
def stepFrom (place : TreePlace) (name : String) : TreePlace :=
  if name = "." then place
  else if name = ".." then place.dropLast
  else place ++ [name]

/-- Follows steps from a place; each step starts in a directory and has a name that is
not too long. -/
def follow (t : FileTree) (place : TreePlace) : List String → Except FileError TreePlace
  | [] => .ok place
  | name :: names =>
    match t.node? place with
    | none => .error .notFound
    | some (.file _) => .error .notDirectory
    | some .dir =>
      if name.utf8ByteSize > Path.maxNameSize then .error .nameTooLong
      else t.follow (stepFrom place name) names

/-- Why a path is refused before any step is followed. -/
def refusal? (path : String) : Option FileError :=
  if Path.hasNul path then some .nulInName
  else if path.utf8ByteSize > Path.maxSize then some .nameTooLong
  else if path.isEmpty then some .notFound
  else none

/-- The place that a path leads to; there may be nothing yet. -/
def resolve (t : FileTree) (path : String) : Except FileError TreePlace :=
  match refusal? path with
  | some e => .error e
  | none =>
    t.follow (t.start path) (Path.parts path ++ if Path.endsInSlash path then ["."] else [])

/-! ### Looking -/

/-- The text of a file. -/
def readText (t : FileTree) (path : String) : Except FileError Text := do
  let place ← t.resolve path
  match t.node? place with
  | none => .error .notFound
  | some .dir => .error .isDirectory
  | some (.file (.text s)) => .ok s
  | some (.file (.bytes _)) => .error .invalidText

/-- Whether steps from a place lead to a directory. -/
def isDirAt (t : FileTree) (place : TreePlace) (parts : List String) : Bool :=
  match t.follow place parts with
  | .ok place => t.node? place == some .dir
  | .error _ => false

/-- Whether a path leads to a directory. -/
def isDir (t : FileTree) (path : String) : Bool :=
  (refusal? path).isNone && t.isDirAt (t.start path) (Path.parts path)

/-! ### Directories -/

/-- Makes one directory, where nothing may be yet. -/
def makeDir (t : FileTree) (place : TreePlace) (parts : List String) :
    Except FileError FileTree := do
  let target ← t.follow place parts
  match t.node? target with
  | some _ => .error .alreadyExists
  | none => .ok (t.set target .dir)

/-- The steps to the directory that holds the place where steps lead to. -/
def parent (parts : List String) : List String := (parts.filter (· ≠ ".")).dropLast

theorem length_parent_lt {parts : List String} (h : parts ≠ []) :
    (parent parts).length < parts.length := by
  have h₁ := List.length_filter_le (· ≠ ".") parts
  have h₂ := List.length_pos_iff.mpr h
  simp only [parent, List.length_dropLast]
  omega

/-- The outcome of a change that can stop halfway: what was changed before an error
stays. -/
structure Attempt where
  /-- The tree afterwards. -/
  tree : FileTree
  /-- What went wrong, if anything did. -/
  error : Option FileError
  deriving DecidableEq, Repr

/-- Makes one directory, unless it exists. -/
def ensureDir (t : FileTree) (place : TreePlace) (parts : List String) : Attempt :=
  match t.makeDir place parts with
  | .ok t => ⟨t, none⟩
  | .error e => ⟨t, if t.isDirAt place parts then none else some e⟩

/-- Makes a directory and those on the way to it, unless they exist. -/
def createDirsAt (t : FileTree) (place : TreePlace) (parts : List String) : Attempt :=
  if _h : parts = [] then ⟨t, none⟩
  else
    match t.makeDir place parts with
    | .error .notFound =>
      let above := t.createDirsAt place (parent parts)
      if above.error.isSome then above else above.tree.ensureDir place parts
    | _ => t.ensureDir place parts
termination_by parts.length
decreasing_by exact length_parent_lt _h

/-- Makes a directory and those on the way to it, unless they exist.  The empty path
stands for the working directory here. -/
def createDirs (t : FileTree) (path : String) : Attempt :=
  if path.isEmpty then ⟨t, none⟩
  else
    match refusal? path with
    | some e => ⟨t, some e⟩
    | none => t.createDirsAt (t.start path) (Path.parts path)

/-! ### Files -/

/-- Writes a file into a directory that exists; a file at the same place is
replaced. -/
def write (t : FileTree) (path : String) (content : Content) : Except FileError FileTree := do
  let place ← t.resolve path
  match t.node? place with
  | some .dir => .error .isDirectory
  | _ => .ok (t.set place (.file content))

/-! ### The map that a tree is -/

@[simp] theorem node?_nil (t : FileTree) : t.node? [] = some .dir := if_pos rfl

theorem node?_set_self (t : FileTree) {place : TreePlace} (n : Node) (h : place ≠ []) :
    (t.set place n).node? place = some n := by
  simp [node?, set, h]

end FileTree

end PixelWrap
