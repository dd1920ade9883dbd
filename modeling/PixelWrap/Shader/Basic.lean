import PixelWrap.Decl.Basic
import PixelWrap.Notice
import PixelWrap.Shader.Model

/-!
# Shaders from functions

Each function of a source becomes a pixel shader of its own: a file with the body of
the function and with the parameters of the function as the inputs of the shader.
Inputs and outputs of a shader carry semantics, which are assigned here.

## Main definitions

* `Options`: choices of the user.
* `assignSemantics`: the semantics of the parameters.
* `Shader.render`: the shader of a function.
* `Shaders`: the shaders of all functions, and the functions without one.
-/

namespace PixelWrap

/-! ### Options -/

/-- How the semantics of parameters are chosen. -/
inductive SemanticPolicy where
  /-- `COLOR` and the position of the parameter. -/
  | positional
  /-- Letters for simple parameters, and as above for all others. -/
  | lettered
  deriving DecidableEq, Repr

/-- Which functions get a semantic for their result. -/
inductive ReturnPolicy where
  /-- All functions. -/
  | always
  /-- Functions that have a result. -/
  | omitForVoid
  deriving DecidableEq, Repr

/-- Choices of the user. -/
structure Options where
  /-- The models that a file is compiled for. -/
  models : List ShaderModel := ShaderModel.all
  /-- The file that each shader includes. -/
  shaderInclude : String := "UnityCG.cginc"
  /-- The name of the function that a shader starts with. -/
  entryPoint : String := "PSMain"
  /-- The semantics of parameters. -/
  semantics : SemanticPolicy := .positional
  /-- The semantics of results. -/
  returnSemantic : ReturnPolicy := .always
  /-- The number of parameters that a shader can have. -/
  maxParams : Nat := 26
  deriving DecidableEq, Repr

/-! ### Semantics -/

/-- The letters, in order. -/
def letters : List Char := "ABCDEFGHIJKLMNOPQRSTUVWXYZ".toList

/-- The semantic of the parameter at a position. -/
def positional (index : Nat) : Text := "COLOR".toList ++ (toString index).toList

/-- The semantics of parameters from position `index` on, where `free` are the letters
not yet in use. -/
def assignFrom (policy : SemanticPolicy) (index : Nat) (free : List Char) :
    List Param → List Text
  | [] => []
  | p :: ps =>
    if policy = .lettered ∧ p.isSimple then
      match free with
      | l :: free => [l] :: assignFrom policy (index + 1) free ps
      | [] => positional index :: assignFrom policy (index + 1) [] ps
    else positional index :: assignFrom policy (index + 1) free ps

/-- The semantics of parameters, in order. -/
def assignSemantics (policy : SemanticPolicy) (ps : List Param) : List Text :=
  assignFrom policy 0 letters ps

/-! ### Shaders -/

/-- The shader of a function. -/
structure Shader where
  /-- The name of the function. -/
  name : String
  /-- The content of its file. -/
  text : Text
  /-- The form that is printed: under the name of the function, and without what
  stands in front of it in the file. -/
  console : Text
  deriving DecidableEq, Repr

/-- A function that has too many parameters for a shader. -/
structure Skipped where
  /-- The name of the function. -/
  name : String
  /-- Where the name stands. -/
  location : Location
  /-- The number of its parameters. -/
  paramCount : Nat
  /-- The number of parameters that a shader can have. -/
  maxParams : Nat
  deriving DecidableEq, Repr

/-- Why the function is skipped, in words. -/
def Skipped.message (s : Skipped) : String :=
  s.location.display ++ ": skipping function " ++ s.name ++ ": " ++ toString s.paramCount ++
    " parameters is more than the " ++ toString s.maxParams ++ " supported"

namespace Shader

/-- The name of the file of a shader. -/
def fileName (s : Shader) : String := s.name ++ ".hlsl"

/-- The parameters of a shader: those of the function as they are written, each with
its semantic. -/
def renderParams (o : Options) (ps : List Param) : Text :=
  Text.join [',', ' '] <|
    List.zipWith (fun p semantic => p.text ++ " : ".toList ++ semantic) ps
      (assignSemantics o.semantics ps)

/-- The type of the result of a shader. -/
def renderType (t : TypeName) : Text :=
  if t.isConst then "const ".toList ++ t.text else t.text

/-- The semantic of the result of a shader. -/
def renderTarget (o : Options) (t : TypeName) : Text :=
  if o.returnSemantic = .omitForVoid ∧ t.isVoid then [] else " : SV_TARGET".toList

/-- What stands in front of the body of a shader. -/
def renderSignature (o : Options) (name : String) (s : Signature) : Text :=
  renderType s.returnType ++ ' ' :: name.toList ++ '(' :: renderParams o s.params ++
    ')' :: renderTarget o s.returnType

/-- The content of the file of a shader. -/
def renderFile (o : Options) (f : Function) : Text :=
  metadataLine o.models ++ "\n\n#include \"".toList ++ o.shaderInclude.toList ++
    "\"\n\n".toList ++ renderSignature o o.entryPoint f.signature ++ '\n' :: f.body ++ ['\n']

/-- The form of a shader that is printed. -/
def renderConsole (o : Options) (f : Function) : Text :=
  renderSignature o f.signature.name f.signature ++ '\n' :: f.body ++ ['$']

/-- The shader of a function, unless the function has too many parameters. -/
def render (o : Options) (f : Function) : Except Skipped Shader :=
  if f.signature.params.length > o.maxParams then
    .error {
      name := f.signature.name
      location := f.signature.location
      paramCount := f.signature.params.length
      maxParams := o.maxParams }
  else
    .ok {
      name := f.signature.name
      text := renderFile o f
      console := renderConsole o f }

end Shader

/-! ### All functions -/

/-- The shaders of the functions of a source. -/
structure Shaders where
  /-- The shaders, in the order of the functions. -/
  shaders : List Shader
  /-- The functions without a shader, in order. -/
  skipped : List Skipped
  deriving DecidableEq, Repr

namespace Shaders

/-- The outcome for one function. -/
def shader? : Except Skipped Shader → Option Shader
  | .ok s => some s
  | .error _ => none

/-- The outcome for one function. -/
def skipped? : Except Skipped Shader → Option Skipped
  | .ok _ => none
  | .error s => some s

/-- The shaders of functions. -/
def ofFunctions (o : Options) (fs : List Function) : Shaders :=
  { shaders := fs.filterMap fun f => shader? (Shader.render o f)
    skipped := fs.filterMap fun f => skipped? (Shader.render o f) }

/-- The notices on functions, where shaders of the names `seen` exist already: on each
function that is skipped, and on each that has the name of an earlier one. -/
def notices (o : Options) (seen : List String) : List Function → List Notice
  | [] => []
  | f :: fs =>
    match Shader.render o f with
    | .error s => ⟨.warn, .shaders, s.message⟩ :: notices o seen fs
    | .ok s =>
      if s.name ∈ seen then
        ⟨.warn, .shaders, f.signature.location.display ++ ": function " ++ s.name ++
          " is defined more than once, the last definition wins"⟩ :: notices o seen fs
      else notices o (s.name :: seen) fs

end Shaders

end PixelWrap
