import PixelWrap.Shader.Basic

/-!
# The command line

## Main definitions

* `Arguments`: what the user asks for.
* `Arguments.parse?`: reads the words of a command line.
* `Arguments.options`: the options for the shaders.
* `usage`: how the program is called.
-/

namespace PixelWrap

/-- How the program is called. -/
def usage : String :=
"Unity macro shader generator

Creates one pixel shader per function defined in a Unity include file.

Usage:
  create_macro_shaders [options] [-I <include_path>...] [<source-file>]
  create_macro_shaders --help

Options:
  -h --help                  Show help.
  -o <output_dir>            Directory to write shaders to [default: ../../../shaders/source/macros].
  -I <include_path>          Path to search for includes in. Defaults to CGIncludes.
  --semantics <policy>       Parameter semantics, positional or lettered [default: positional].
  --void-return <policy>     Return semantic of void functions, target or bare [default: target].
  --models <list>            Shader models for the metadata line [default: 4_1,5_0].
  --stdout                   Print shaders instead of writing files.
"

/-- What the user asks for. -/
structure Arguments where
  /-- Whether to show how the program is called. -/
  help : Bool := false
  /-- The directory that shaders are written to. -/
  outputDir : String := "../../../shaders/source/macros"
  /-- The directories in which included files are looked for. -/
  includePaths : List String := []
  /-- The word for the semantics of parameters. -/
  semantics : String := "positional"
  /-- The word for the semantics of functions without a result. -/
  voidReturn : String := "target"
  /-- The list of shader models. -/
  models : String := "4_1,5_0"
  /-- Whether shaders are printed and not written. -/
  stdout : Bool := false
  /-- The source file. -/
  sourceFile : Option String := none
  deriving DecidableEq, Repr

namespace Arguments

/-! ### Reading words -/

/-- A flag that takes a value. -/
inductive Flag where
  /-- `-o` -/
  | outputDir
  /-- `-I` -/
  | includePath
  /-- `--semantics` -/
  | semantics
  /-- `--void-return` -/
  | voidReturn
  /-- `--models` -/
  | models
  deriving DecidableEq, Repr

/-- The flags with values by their spellings. -/
def valueFlags : List (String × Flag) := [
  ("-o", .outputDir),
  ("-I", .includePath),
  ("--semantics", .semantics),
  ("--void-return", .voidReturn),
  ("--models", .models)]

/-- The arguments with the value of a flag. -/
def setFlag (a : Arguments) (value : String) : Flag → Arguments
  | .outputDir => { a with outputDir := value }
  | .includePath => { a with includePaths := a.includePaths ++ [value] }
  | .semantics => { a with semantics := value }
  | .voidReturn => { a with voidReturn := value }
  | .models => { a with models := value }

/-- The arguments with a word that is no flag: the source file, of which there is at
most one. -/
def setSource? (a : Arguments) (w : String) : Option Arguments :=
  if a.sourceFile.isNone then some { a with sourceFile := some w } else none

/-- A word with a flag in it. -/
inductive Word where
  /-- A flag whose value is the next word. -/
  | needsValue (f : Flag)
  /-- A flag with its value. -/
  | hasValue (f : Flag) (value : String)
  /-- `--stdout` -/
  | stdout
  /-- `--help` or `-h` -/
  | help
  /-- The end of the flags. -/
  | endOfFlags
  /-- A word that is no flag. -/
  | plain
  /-- A flag that does not exist. -/
  | unknown
  deriving DecidableEq, Repr

/-- Reads a long flag, whose value may follow an equals sign. -/
def longWord (w : String) : Word :=
  match Text.cut? ['='] w.toList with
  | some (name, value) =>
    match valueFlags.lookup (String.ofList name) with
    | some f => .hasValue f (String.ofList value)
    | none => .unknown
  | none =>
    match valueFlags.lookup w with
    | some f => .needsValue f
    | none => if w == "--stdout" then .stdout else if w == "--help" then .help else .unknown

/-- Reads a short flag, whose value may follow at once. -/
def shortWord (c : Char) (value : Text) : Word :=
  match valueFlags.lookup (String.ofList ['-', c]) with
  | some f => if value.isEmpty then .needsValue f else .hasValue f (String.ofList value)
  | none => if c == 'h' && value.isEmpty then .help else .unknown

/-- Whether what stands after two dashes is a long flag.  There is no white space in a
flag, but there may be some, line feeds aside, in the value after an equals sign. -/
def isLongFlag : Text → Bool
  | [] => false
  | c :: r =>
    !isSpace c && (r.all (!isSpace ·) ||
      match Text.cut? ['='] r with
      | some (name, value) => name.all (!isSpace ·) && !value.isEmpty && value.all (· != '\n')
      | none => false)

/-- Reads the flag that a word holds.  A word with white space in it is no flag, apart
from the value of a long flag. -/
def readWord (w : String) : Word :=
  match w.toList with
  | ['-', '-'] => .endOfFlags
  | '-' :: '-' :: body => if isLongFlag body then longWord w else .plain
  | '-' :: c :: value => if value.any isSpace then .plain else shortWord c value
  | _ => .plain

/-- Adds words to the arguments; `flags` says whether words can still be flags. -/
def addWords (a : Arguments) (flags : Bool) : List String → Option Arguments
  | [] => some a
  | w :: ws =>
    match if flags then readWord w else .plain with
    | .plain => (a.setSource? w).bind fun a => a.addWords flags ws
    | .endOfFlags => a.addWords false ws
    | .stdout => { a with stdout := true }.addWords flags ws
    | .help => { a with help := true }.addWords flags ws
    | .hasValue f value => (a.setFlag value f).addWords flags ws
    | .needsValue f =>
      match ws with
      | [] => none
      | value :: ws => (a.setFlag value f).addWords flags ws
    | .unknown => none

/-- Reads the words of a command line; `none` if the program cannot be called like
that. -/
def parse? (words : List String) : Option Arguments := addWords {} true words

/-! ### Options -/

/-- Why arguments are no options. -/
inductive Error where
  /-- No semantics of parameters have that name. -/
  | unknownSemantics (word : String)
  /-- No semantics of functions without a result have that name. -/
  | unknownVoidReturn (word : String)
  /-- A shader model in the list does not exist. -/
  | invalidModels (list : String) (cause : ShaderModel.Unknown)
  deriving DecidableEq, Repr

/-- The error in words. -/
def Error.message : Error → String
  | .unknownSemantics w => "unknown semantic policy '" ++ w ++ "'"
  | .unknownVoidReturn w => "unknown void return policy '" ++ w ++ "'"
  | .invalidModels l e => "invalid shader model list '" ++ l ++ "': " ++ e.message

/-- The semantics of parameters by their names. -/
def policies : List (String × SemanticPolicy) :=
  [("positional", .positional), ("lettered", .lettered)]

/-- The semantics of functions without a result by their names. -/
def returnPolicies : List (String × ReturnPolicy) :=
  [("target", .always), ("bare", .omitForVoid)]

/-- The shader models in a list with commas. -/
def parseModels (list : String) : Except ShaderModel.Unknown (List ShaderModel) :=
  (Text.splitAt ',' list.toList).mapM fun name => ShaderModel.parse (String.ofList name)

/-- The options for the shaders.  Of several faults the first one in the order of
semantics, results and models counts. -/
def options (a : Arguments) : Except Error Options :=
  match policies.lookup a.semantics with
  | none => .error (.unknownSemantics a.semantics)
  | some semantics =>
    match returnPolicies.lookup a.voidReturn with
    | none => .error (.unknownVoidReturn a.voidReturn)
    | some returnSemantic =>
      match parseModels a.models with
      | .error e => .error (.invalidModels a.models e)
      | .ok models => .ok { models, semantics, returnSemantic }

end Arguments

end PixelWrap
