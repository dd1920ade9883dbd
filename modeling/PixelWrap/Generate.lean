import PixelWrap.Decl.Grammar
import PixelWrap.Preprocessed.Run
import PixelWrap.Shader.Basic
import PixelWrap.Token.Lexer

/-!
# Generating shaders from a source

## Main definitions

* `Generate.Error`: why a source cannot be read.
* `generate`: the shaders of a source.
-/

namespace PixelWrap

/-- Why a source cannot be read. -/
inductive Generate.Error where
  /-- Its directives or macros are wrong. -/
  | preprocess (e : Preprocessed.Error)
  /-- It cannot be cut into tokens. -/
  | lex (e : Token.Error)
  /-- Its tokens make up no declarations. -/
  | parse (e : Decl.Error)
  deriving DecidableEq, Repr

/-- The error as messages show it. -/
def Generate.Error.message : Generate.Error → String
  | .preprocess e => e.message
  | .lex e => e.message
  | .parse e => e.message

/-- The remark on how much a source declares. -/
def Generate.remark (name : String) (ds : List Decl) : Notice :=
  ⟨.debug, .shaders, name ++ ": " ++ toString ds.length ++ " root definitions, " ++
    toString (functions ds).length ++ " function definitions"⟩

/-- The declarations of preprocessed text. -/
def outline (p : Preprocessed) : Except Generate.Error (List Decl) :=
  match Token.lex p with
  | .error e => .error (.lex e)
  | .ok ts => (Decl.parse p ts).mapError .parse

/-- The shaders of a source; `load` gives the files that can be included. -/
def generate (load : String → Option Text) (o : Options) (name : String) (text : Text) :
    Report (Except Generate.Error Shaders) :=
  let run := Preprocessed.run load (some name) text
  match run.result with
  | .error e => ⟨.error (.preprocess e), run.notices⟩
  | .ok p =>
    match outline p with
    | .error e => ⟨.error e, run.notices⟩
    | .ok ds =>
      ⟨.ok (Shaders.ofFunctions o (functions ds)),
        run.notices ++ Generate.remark name ds :: Shaders.notices o [] (functions ds)⟩

end PixelWrap
