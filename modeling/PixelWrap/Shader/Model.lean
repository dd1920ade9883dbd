import PixelWrap.Text.Basic

/-!
# Shader models and profiles

A generated file is compiled for some shader models, which its first line names, and
for the stages whose entry points occur in it.

## Main definitions

* `ShaderModel`, with `ShaderModel.parse` and `ShaderModel.display`.
* `metadataLine`: the first line of a generated file.
* `Stage`, `Profile`: what a file is compiled for.
* `detectProfiles`: the profiles that a file is compiled for.
-/

namespace PixelWrap

/-! ### Models -/

/-- A version of the shader language. -/
inductive ShaderModel where
  /-- Version 4.1. -/
  | v41
  /-- Version 5.0. -/
  | v50
  deriving DecidableEq, Repr

namespace ShaderModel

/-- All models, in order. -/
def all : List ShaderModel := [.v41, .v50]

/-- The name of a model. -/
def display : ShaderModel → Text
  | .v41 => ['4', '_', '1']
  | .v50 => ['5', '_', '0']

/-- A name that is not that of a model. -/
structure Unknown where
  /-- The name. -/
  name : String
  deriving DecidableEq, Repr

/-- The error in words. -/
def Unknown.message (e : Unknown) : String :=
  "unknown shader model `" ++ e.name ++ "` (expected 4_1 or 5_0)"

/-- The model of the given name, white space aside. -/
def parse (name : String) : Except Unknown ShaderModel :=
  match String.ofList (Text.trim name.toList) with
  | "4_1" => .ok .v41
  | "4.1" => .ok .v41
  | "5_0" => .ok .v50
  | "5.0" => .ok .v50
  | other => .error ⟨other⟩

end ShaderModel

/-- The first line of a generated file, which names the models. -/
def metadataLine (models : List ShaderModel) : Text :=
  "// SM: ".toList ++ Text.join [',', ' '] (models.map ShaderModel.display)

/-! ### Profiles -/

/-- A stage of drawing that a shader runs in. -/
inductive Stage where
  /-- Once for each vertex. -/
  | vertex
  /-- Once for each pixel. -/
  | pixel
  deriving DecidableEq, Repr

namespace Stage

/-- All stages, in order. -/
def all : List Stage := [.vertex, .pixel]

/-- The name of the function that a stage starts with. -/
def entryPoint : Stage → Text
  | .vertex => ['V', 'S', 'M', 'a', 'i', 'n']
  | .pixel => ['P', 'S', 'M', 'a', 'i', 'n']

/-- The name of a stage in a profile. -/
def display : Stage → Text
  | .vertex => ['v', 's']
  | .pixel => ['p', 's']

end Stage

/-- What a file is compiled for. -/
structure Profile where
  /-- The stage. -/
  stage : Stage
  /-- The model. -/
  model : ShaderModel
  deriving DecidableEq, Repr

/-- The name of a profile. -/
def Profile.display (p : Profile) : Text := p.stage.display ++ '_' :: p.model.display

/-- The profiles that a file is compiled for: each stage whose entry point occurs in
the text, with each model that the first line names. -/
def detectProfiles (t : Text) : List Profile :=
  let stages := Stage.all.filter fun s => Text.contains s.entryPoint t
  let models := ShaderModel.all.filter fun m => Text.contains m.display (Text.firstLine t)
  stages.flatMap fun s => models.map fun m => ⟨s, m⟩

end PixelWrap
