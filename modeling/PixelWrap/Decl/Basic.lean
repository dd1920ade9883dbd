import PixelWrap.Preprocessed.Basic

/-!
# Declarations

The outline of a shader source: its declarations at the top level.  Function bodies,
members of structures and initial values are kept as text or not at all.

## Main definitions

* `Modifier`: words in front of the type of a parameter.
* `TypeName`, `Param`, `Signature`, `Function`: parts of a function.
* `Decl`: a declaration at the top level.
-/

namespace PixelWrap

/-- A word in front of the type of a parameter. -/
inductive Modifier where
  /-- `in` -/
  | input
  /-- `out` -/
  | output
  /-- `inout` -/
  | inputOutput
  /-- `uniform` -/
  | uniform
  /-- `const` -/
  | const
  /-- `linear` -/
  | linear
  /-- `centroid` -/
  | centroid
  /-- `nointerpolation` -/
  | noInterpolation
  /-- `noperspective` -/
  | noPerspective
  /-- `sample` -/
  | sample
  /-- `point` -/
  | point
  /-- `line` -/
  | line
  /-- `triangle` -/
  | triangle
  /-- `lineadj` -/
  | lineAdj
  /-- `triangleadj` -/
  | triangleAdj
  deriving DecidableEq, Repr

/-- The modifiers that are ordinary names elsewhere. -/
def Modifier.contextual : List (String × Modifier) := [
  ("linear", .linear),
  ("centroid", .centroid),
  ("nointerpolation", .noInterpolation),
  ("noperspective", .noPerspective),
  ("sample", .sample),
  ("point", .point),
  ("line", .line),
  ("triangle", .triangle),
  ("lineadj", .lineAdj),
  ("triangleadj", .triangleAdj)]

/-- The modifiers that are reserved words. -/
def Modifier.reserved : List (String × Modifier) := [
  ("in", .input),
  ("out", .output),
  ("inout", .inputOutput),
  ("uniform", .uniform),
  ("const", .const)]

/-- The modifier that a word spells. -/
def Modifier.ofWord? (w : String) : Option Modifier :=
  (Modifier.reserved ++ Modifier.contextual).lookup w

/-- A type as it is written. -/
structure TypeName where
  /-- Its text, without a `const` in front of it. -/
  text : Text
  /-- Whether `const` stands in front of it. -/
  isConst : Bool
  deriving DecidableEq, Repr

/-- Whether the type is that of functions without a result. -/
def TypeName.isVoid (t : TypeName) : Bool := t.text == ['v', 'o', 'i', 'd']

/-- A parameter of a function. -/
structure Param where
  /-- Its name. -/
  name : String
  /-- The words in front of its type. -/
  modifiers : List Modifier
  /-- Its type. -/
  type : TypeName
  /-- The contents of the brackets after its name. -/
  dims : List Text
  /-- Its semantic. -/
  semantic : Option String
  /-- Its default value. -/
  defaultValue : Option Text
  /-- The parameter as it is written, up to the last bracket. -/
  text : Text
  deriving DecidableEq, Repr

/-- Whether the parameter has neither modifiers nor a semantic. -/
def Param.isSimple (p : Param) : Bool := p.modifiers.isEmpty && p.semantic.isNone

/-- What is written in front of the body of a function. -/
structure Signature where
  /-- The name of the function. -/
  name : String
  /-- Where the name stands. -/
  location : Location
  /-- The type of its result. -/
  returnType : TypeName
  /-- Its parameters. -/
  params : List Param
  /-- The semantic of its result. -/
  semantic : Option String
  /-- The contents of the brackets in front of it. -/
  attributes : List Text
  deriving DecidableEq, Repr

/-- A function with its body. -/
structure Function where
  /-- What is written in front of the body. -/
  signature : Signature
  /-- The body as it is written, with its braces. -/
  body : Text
  /-- Where the body stands. -/
  span : Span
  deriving DecidableEq, Repr

/-- A declaration at the top level. -/
inductive Decl where
  /-- A structure. -/
  | struct (name : String)
  /-- A buffer of constants or of a texture. -/
  | buffer (name : String)
  /-- A name for a type. -/
  | typedef (name : String)
  /-- Anything else that ends in a semicolon. -/
  | global
  /-- A function with its body. -/
  | function (f : Function)
  /-- A function without a body. -/
  | prototype (s : Signature)
  /-- A semicolon. -/
  | empty
  deriving DecidableEq, Repr

/-- The functions with bodies among declarations, in order. -/
def functions (ds : List Decl) : List Function :=
  ds.filterMap fun
    | .function f => some f
    | _ => none

end PixelWrap
