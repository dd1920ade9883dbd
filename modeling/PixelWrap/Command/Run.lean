import PixelWrap.Command.Arguments
import PixelWrap.File.Output
import PixelWrap.Generate

/-!
# Running the program on a tree of files

## Main definitions

* `Command.Outcome`: what a run prints, and the tree afterwards.
* `Command.Error`: why a run fails.
* `Command.run`: runs the program.
* `Command.logText`: the notices as they are printed.
-/

namespace PixelWrap.Command

/-- The source file if none is given. -/
def defaultSource : String := "CGIncludes/UnityCG.cginc"

/-- The directory of included files if none is given. -/
def defaultInclude : String := "CGIncludes"

/-! ### Errors -/

/-- Why a run fails. -/
inductive Error where
  /-- The arguments are no options. -/
  | arguments (e : Arguments.Error)
  /-- A directory of included files is none. -/
  | notIncludeDirectory (path : String)
  /-- The source file cannot be read. -/
  | readSource (path : String) (cause : FileError)
  /-- The source is no shader source. -/
  | generate (e : Generate.Error)
  /-- The shaders cannot be written. -/
  | write (e : Output.Error)
  deriving DecidableEq, Repr

/-- The error in words, followed by what lies behind it where that is an error of its
own. -/
def Error.message : Error → String
  | .arguments e => e.message
  | .notIncludeDirectory path => "include path '" ++ path ++ "' is not a directory"
  | .readSource path e => "failed to read file '" ++ path ++ "': " ++ e.message
  | .generate (.preprocess e) => e.message ++ ": " ++ e.reason.message
  | .generate e => e.message
  | .write e => e.message ++ ": " ++ e.cause.message

/-! ### Notices -/

/-- The name of a level, padded to a common width. -/
def levelName : Level → String
  | .error => "ERROR"
  | .warn => "WARN "
  | .info => "INFO "
  | .debug => "DEBUG"

/-- The name of a part of the program. -/
def partName : Part → String
  | .preprocessor => "cms_transform_preprocess::preprocess"
  | .shaders => "cms_transform_hst_to_psmain::psmain"
  | .commandLine => "create_macro_shaders"

/-- A message in which each line but the first is indented. -/
def indentLines (t : Text) : Text :=
  t.flatMap fun c => if c == '\n' then "\n    ".toList else [c]

/-- A notice as it is printed. -/
def noticeText (n : Notice) : Text :=
  '[' :: (levelName n.level).toList ++ ' ' :: (partName n.part).toList ++ "] ".toList ++
    indentLines n.message.toList ++ ['\n']

/-- The notices as they are printed; remarks for those who look for a fault are left
out. -/
def logText (ns : List Notice) : Text :=
  (ns.filter (·.level ≠ .debug)).flatMap noticeText

/-! ### Running -/

/-- What a run prints, and the tree afterwards. -/
structure Outcome where
  /-- Whether the run went well. -/
  ok : Bool
  /-- What it prints. -/
  stdout : Text
  /-- The notices it gives. -/
  notices : List Notice
  /-- The tree afterwards. -/
  tree : FileTree
  deriving Repr

/-- The outcome of a run that fails. -/
def failed (t : FileTree) (before : List Notice) (e : Error) : Outcome :=
  ⟨false, [], before ++ [⟨.error, .commandLine, e.message⟩], t⟩

/-- A remark of the command line. -/
def remark (message : String) : Notice := ⟨.info, .commandLine, message⟩

/-- The directories of included files.  All that are given have to exist. -/
def includePaths (t : FileTree) (a : Arguments) : Except Error (List String) :=
  if a.includePaths.isEmpty then .ok [defaultInclude]
  else
    match a.includePaths.find? fun p => !t.isDir p with
    | some p => .error (.notIncludeDirectory p)
    | none => .ok a.includePaths

/-- The remark at the end of a run. -/
def summary (source : String) (s : Shaders) : Notice :=
  remark (source ++ ": " ++ toString s.shaders.length ++ " shaders generated, " ++
    toString s.skipped.length ++ " functions skipped")

/-- Prints or writes shaders. -/
def deliver (t : FileTree) (a : Arguments) (source : String) (before : List Notice)
    (s : Shaders) : Outcome :=
  if a.stdout then
    ⟨true, s.shaders.flatMap fun s => s.console ++ ['\n'], before ++ [summary source s], t⟩
  else
    let w := writeShaders t a.outputDir s.shaders
    match w.result with
    | .error e => failed w.tree (before ++ w.notices) (.write e)
    | .ok paths =>
      ⟨true, [], before ++ w.notices ++ [
        remark ("wrote " ++ toString paths.length ++ " shaders to " ++ a.outputDir),
        summary source s], w.tree⟩

/-- What a run needs before it generates shaders: the options, the directories of
included files, and the source. -/
def prepare (t : FileTree) (a : Arguments) (source : String) :
    Except Error (Options × List String × Text) := do
  let options ← a.options.mapError .arguments
  let dirs ← includePaths t a
  let text ← (t.readText source).mapError (.readSource source)
  return (options, dirs, text)

/-- Runs the program. -/
def run (t : FileTree) (a : Arguments) : Outcome :=
  let source := a.sourceFile.getD defaultSource
  match prepare t a source with
  | .error e => failed t [] e
  | .ok (options, dirs, text) =>
    let report := generate (loadInclude t dirs) options source text
    match report.result with
    | .error e => failed t report.notices (.generate e)
    | .ok shaders => deliver t a source report.notices shaders

end PixelWrap.Command
