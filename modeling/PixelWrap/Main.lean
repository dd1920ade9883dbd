import PixelWrap.Command.Run

/-!
# The program

The outer layer: it looks at the files that a run can touch, runs the program on a
tree that holds them, and carries the changes of the tree over to the disk.

## Main definitions

* `Disk.observe`: adds what is at a path to a tree.
* `Disk.apply`: carries changes of a tree over to the disk.
* `main`: the program.
-/

namespace PixelWrap.Disk

/-- The path of a place. -/
def pathOf (place : TreePlace) : String := "/" ++ "/".intercalate place

/-- What is at a place on the disk. -/
def nodeAt (place : TreePlace) : IO (Option Node) := do
  let here ← IO.currentDir
  let target := here / pathOf place
  if ← target.isDir then return some .dir
  else if ← target.pathExists then
    let bytes ← IO.FS.readBinFile target
    match String.fromUTF8? bytes with
    | some s => return some (.file (.text s.toList))
    | none => return some (.file (.bytes bytes.toList))
  else return none

/-- Adds what is at a path, and at the places on the way to it, to the tree. -/
def observe (t : FileTree) (path : String) : IO FileTree := do
  let mut t := t
  let mut place := t.start path
  for name in Path.parts path do
    place := FileTree.stepFrom place name
    if let some n ← nodeAt place then
      t := t.set place n
  return t

/-- The tree that holds the working directory. -/
def workingTree : IO FileTree := do
  let here := (← IO.currentDir).toString
  let t : FileTree := ⟨Path.parts here, []⟩
  observe t here

/-- The files that a text may include. -/
def includeNames (t : Text) : List String :=
  (Item.ofText (Comment.blank t)).filterMap fun
    | .directive _ c =>
      match Directive.ofCommand c with
      | .includeFile operands => Directive.includeName? operands
      | _ => none
    | .region _ _ => none

/-- Adds the files that texts may include, and those that these may include. -/
partial def observeIncludes (dirs seen : List String) (t : FileTree) :
    List Text → IO FileTree
  | [] => return t
  | text :: texts => do
    let names := (includeNames text).eraseDups.filter (!seen.contains ·)
    let mut t := t
    for name in names do
      for path in if Path.isAbsolute name then [name] else dirs.map (Path.join · name) do
        t ← observe t path
    observeIncludes dirs (seen ++ names) t (texts ++ names.filterMap (loadInclude t dirs))

/-- Adds all that a run with these arguments can touch. -/
def observeRun (a : Arguments) : IO FileTree := do
  let source := a.sourceFile.getD Command.defaultSource
  let dirs := if a.includePaths.isEmpty then [Command.defaultInclude] else a.includePaths
  let mut t ← workingTree
  for path in source :: a.outputDir :: dirs do
    t ← observe t path
  if t.isDir a.outputDir then
    for entry in ← ((← IO.currentDir) / a.outputDir).readDir do
      t ← observe t (Path.join a.outputDir entry.fileName)
  observeIncludes dirs [] t (t.readText source).toOption.toList

/-- Carries the changes from one tree to another over to the disk. -/
def apply (before after : FileTree) : IO Unit := do
  for (place, n) in after.entries.reverse do
    if before.node? place != some n then
      let path := pathOf place
      match n with
      | .dir => IO.FS.createDirAll path
      | .file (.text s) => IO.FS.writeFile path (String.ofList s)
      | .file (.bytes b) => IO.FS.writeBinFile path ⟨b.toArray⟩

end PixelWrap.Disk

open PixelWrap in
/-- Reads the command line, runs the program and prints what it has to say. -/
def main (words : List String) : IO UInt32 := do
  match Arguments.parse? words with
  | none =>
    IO.eprint usage
    return 1
  | some a =>
    if a.help then
      IO.print usage
      return 0
    let before ← Disk.observeRun a
    let outcome := Command.run before a
    Disk.apply before outcome.tree
    IO.print (String.ofList outcome.stdout)
    IO.eprint (String.ofList (Command.logText outcome.notices))
    return if outcome.ok then 0 else 1
