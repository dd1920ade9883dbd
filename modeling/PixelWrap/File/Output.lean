import PixelWrap.File.Tree
import PixelWrap.Notice
import PixelWrap.Shader.Basic

/-!
# Included files and written shaders

## Main definitions

* `loadInclude`: the file that an include names, looked for in directories.
* `writeShaders`: writes each shader to its file.
* `Output.Error`: why shaders cannot be written.
-/

namespace PixelWrap

/-- The text of the file that an include names: the first one that can be read in the
directories, or the file itself if the name is an absolute path. -/
def loadInclude (t : FileTree) (dirs : List String) (name : String) : Option Text :=
  if Path.isAbsolute name then (t.readText name).toOption
  else dirs.findSome? fun dir => (t.readText (Path.join dir name)).toOption

/-- Why shaders cannot be written. -/
inductive Output.Error where
  /-- The directory for them cannot be made. -/
  | createDirectory (path : String) (cause : FileError)
  /-- A file cannot be written. -/
  | writeShader (path : String) (cause : FileError)
  deriving DecidableEq, Repr

namespace Output

/-- What lies behind an error. -/
def Error.cause : Error → FileError
  | .createDirectory _ e => e
  | .writeShader _ e => e

/-- The error in words. -/
def Error.message : Error → String
  | .createDirectory path e => "failed to create output directory " ++ path ++ ": " ++ e.message
  | .writeShader path e => "failed to write " ++ path ++ ": " ++ e.message

/-- The outcome of writing shaders.  What was written before an error stays. -/
structure Written where
  /-- The tree afterwards. -/
  tree : FileTree
  /-- The paths of the files, in order. -/
  result : Except Error (List String)
  /-- The notices. -/
  notices : List Notice
  deriving Repr

/-- The remark that a file has been written. -/
def remark (path : String) (s : Shader) : Notice :=
  let profiles := Text.join [',', ' '] ((detectProfiles s.text).map Profile.display)
  ⟨.debug, .shaders, "wrote " ++ path ++ " (" ++ String.ofList profiles ++ ")"⟩

/-- Writes shaders into a directory that exists. -/
def writeInto (t : FileTree) (dir : String) : List Shader → Written
  | [] => ⟨t, .ok [], []⟩
  | s :: ss =>
    let path := Path.join dir s.fileName
    match t.write path (.text s.text) with
    | .error e => ⟨t, .error (.writeShader path e), []⟩
    | .ok t =>
      let w := writeInto t dir ss
      ⟨w.tree, w.result.map (path :: ·), remark path s :: w.notices⟩

end Output

/-- Writes each shader to its file in a directory, which is made if it does not
exist. -/
def writeShaders (t : FileTree) (dir : String) (shaders : List Shader) : Output.Written :=
  let made := t.createDirs dir
  match made.error with
  | some e => ⟨made.tree, .error (.createDirectory dir e), []⟩
  | none => Output.writeInto made.tree dir shaders

end PixelWrap
