import PixelWrap.Decl.Basic
import PixelWrap.Decl.Parser

/-!
# The grammar of declarations

The parsers below read the declarations of a shader source from its tokens.  The
preprocessed text that the tokens come from supplies what is kept as written.

## Main definitions

* `Grammar.typeName`, `Grammar.param`, `Grammar.function`: functions and their parts.
* `Grammar.declaration`: one declaration.
* `Grammar.declarations`: all declarations.
* `Decl.parse`: all declarations of a text.

## Main results

* `Grammar.shrinks_declaration`: a declaration takes up at least one token.
-/

namespace PixelWrap.Decl

namespace Grammar

open PixelWrap.Decl.Parser

/-! ### Tokens as written -/

/-- The tokens that were read between two points. -/
def consumed (before after : List Lexeme) : List Lexeme :=
  before.take (before.length - after.length)

/-- The text of tokens as it is written. -/
def sourceOf (p : Preprocessed) (ts : List Lexeme) : Text :=
  match ts.head?, ts.getLast? with
  | some first, some last => p.sourceText (first.span.join last.span)
  | _, _ => []

/-- What stands between brackets. -/
def bracketContents (t : Text) : Text :=
  Text.trim (((t.dropWhile (· == '[')).reverse.dropWhile (· == ']')).reverse)

/-! ### Types -/

/-- The names in front of a type that belong to it. -/
def typeQualifiers : List String := ["row_major", "column_major", "snorm", "unorm", "precise"]

/-- Reads a name in front of a type that belongs to it. -/
def typeQualifier : Parser Unit := do
  let _ ← accept fun t => t.name?.bind fun n => if n ∈ typeQualifiers then some () else none

/-- Reads a type. -/
def typeName (p : Preprocessed) : Parser TypeName := do
  let isConst := (← optional (keyword .const)).isSome
  let start ← get
  let _ ← many typeQualifier
  let _ ← optional (keyword .unsigned)
  let _ ← name
  let _ ← optional (balanced .leftAngle .rightAngle)
  let rest ← get
  return { text := sourceOf p (consumed start rest), isConst }

/-! ### Parameters -/

/-- Whether a token ends the declaration of the name in front of it. -/
def endsName : Token → Bool
  | .symbol .comma | .symbol .rightParen | .symbol .colon | .symbol .equals
  | .symbol .leftSquare => true
  | _ => false

/-- Whether a type and a name follow a word, so that the word is a modifier and not
itself the type. -/
def declaresMore : List Lexeme → Bool
  | t :: r => t.token.name?.isSome && !(r.head?.any fun u => endsName u.token)
  | [] => false

/-- Reads a modifier.  Modifiers that are ordinary names count as such only if a type
and a name follow. -/
def modifier : Parser Modifier := fun ts =>
  match ts with
  | [] => .error (unexpected [])
  | t :: r =>
    match t.token with
    | .keyword .input => .ok (.input, r)
    | .keyword .output => .ok (.output, r)
    | .keyword .inputOutput => .ok (.inputOutput, r)
    | .keyword .uniform => .ok (.uniform, r)
    | .keyword .const => .ok (.const, r)
    | .name n =>
      match Modifier.contextual.lookup n with
      | some m => if declaresMore r then .ok (m, r) else .error (unexpected (t :: r))
      | none => .error (unexpected (t :: r))
    | _ => .error (unexpected (t :: r))

/-- The names after a colon that give a place in memory and no semantic. -/
def placements : List String := ["register", "packoffset"]

/-- Reads a colon and a semantic, or a colon and a place in memory. -/
def binding : Parser (Option String) := do
  symbol .colon
  let (n, _) ← name
  if n ∈ placements then
    let _ ← balanced .leftParen .rightParen
    return none
  else return some n

/-- Reads any number of bindings; the first semantic among them counts. -/
def semantic : Parser (Option String) := do
  return (← many binding).findSome? id

/-- Reads a default value, up to the end of its parameter. -/
def defaultValue : Parser (List Lexeme) := do
  symbol .equals
  scanUntil fun t => t == .symbol .comma || t == .symbol .rightParen

/-- Reads a parameter. -/
def param (p : Preprocessed) : Parser Param := do
  let start ← get
  let modifiers ← many modifier
  let type ← typeName p
  let (n, _) ← name
  let dims ← many (balanced .leftSquare .rightSquare)
  let rest ← get
  let semantic ← semantic
  let value ← optional defaultValue
  return {
    name := n
    modifiers
    type
    dims := dims.map fun s => bracketContents (p.sourceText s)
    semantic
    defaultValue := value.map (sourceOf p)
    text := sourceOf p (consumed start rest) }

/-- Reads `void` and the end of the parameters. -/
def voidParams : Parser (List Param) := do
  let _ ← accept fun t => if t = .name "void" then some () else none
  symbol .rightParen
  return []

/-- Reads parameters and the parenthesis that closes them. -/
def someParams (p : Preprocessed) : Parser (List Param) := do
  let ps ← sepBy (symbol .comma) (param p)
  symbol .rightParen
  return ps

/-- Reads the parameters of a function, in parentheses. -/
def params (p : Preprocessed) : Parser (List Param) := do
  symbol .leftParen
  fun ts =>
    match voidParams ts with
    | .ok x => .ok x
    | .error _ => someParams p ts

/-! ### Functions -/

/-- Reads a word that says how a function is stored or called. -/
def storageClass : Parser Unit := do
  let _ ← accept fun t =>
    if t = .keyword .inlined ∨ t = .keyword .static ∨ t = .keyword .external then some ()
    else none

/-- Reads what is written in front of the body of a function. -/
def signature (p : Preprocessed) : Parser Signature := do
  let attributes ← many (balanced .leftSquare .rightSquare)
  let _ ← many storageClass
  let returnType ← typeName p
  let (n, span) ← name
  let params ← params p
  let semantic ← semantic
  return {
    name := n
    location := (p.location? span.start).getD .nowhere
    returnType
    params
    semantic
    attributes := attributes.map fun s => bracketContents (p.sourceText s) }

/-- Reads the body of a function, or the semicolon in place of one. -/
def functionRest (p : Preprocessed) (s : Signature) : Parser Decl :=
  orElse
    (do
      let span ← balanced .leftBrace .rightBrace
      return .function ⟨s, p.sourceText span, span⟩)
    (do
      symbol .semicolon
      return .prototype s)

/-- Reads a function with or without a body. -/
def function (p : Preprocessed) : Parser Decl := do
  functionRest p (← signature p)

/-! ### Other declarations -/

/-- Reads tokens up to a semicolon outside all brackets. -/
def untilSemicolon : Parser (List Lexeme) := scanUntil (· == .symbol .semicolon)

/-- Reads a structure. -/
def struct : Parser Decl := do
  keyword .struct
  let (n, _) ← name
  let _ ← balanced .leftBrace .rightBrace
  let _ ← untilSemicolon
  symbol .semicolon
  return .struct n

/-- Reads a buffer. -/
def buffer : Parser Decl := do
  orElse (keyword .constantBuffer) (keyword .textureBuffer)
  let (n, _) ← name
  let _ ← optional (do
    symbol .colon
    scanUntil (· == .symbol .leftBrace))
  let _ ← balanced .leftBrace .rightBrace
  let _ ← optional (symbol .semicolon)
  return .buffer n

/-- Reads a name for a type: the last name in front of the semicolon. -/
def typedef : Parser Decl := do
  let start ← get
  keyword .typedef
  let ts ← untilSemicolon
  symbol .semicolon
  match ts.reverse.findSome? (·.token.name?) with
  | some n => return .typedef n
  | none => failAt .failedToParse start

/-- Whether a parenthesis that closes the outermost bracket stands right before an
opening brace.  Only functions contain that. -/
def hasFunctionBody (depth : Nat) : List Lexeme → Bool
  | [] => false
  | t :: r =>
    if opens t.token then hasFunctionBody (depth + 1) r
    else if closes t.token then
      (t.token == .symbol .rightParen && depth - 1 == 0 &&
        (r.head?.any fun u => u.token == .symbol .leftBrace)) ||
      hasFunctionBody (depth - 1) r
    else hasFunctionBody depth r

/-- Reads anything else that ends in a semicolon. -/
def global : Parser Decl := do
  let start ← get
  let ts ← untilSemicolon
  if ts.isEmpty || hasFunctionBody 0 ts then failAt .failedToParse start
  else
    symbol .semicolon
    return .global

/-- Reads a semicolon. -/
def empty : Parser Decl := do
  symbol .semicolon
  return .empty

/-- Reads one declaration. -/
def declaration (p : Preprocessed) : Parser Decl :=
  orElse struct (orElse buffer (orElse typedef (orElse (function p) (orElse global empty))))

/-! ### Declarations take up tokens -/

theorem shrinks_typeName (p : Preprocessed) : Shrinks (typeName p) :=
  (shrinks_token _).keeps.optional.bind_shrinks fun _ =>
    keeps_get.bind_shrinks fun _ =>
      (((shrinks_accept _).bind fun _ => keeps_pure _).keeps.many).bind_shrinks fun _ =>
        (shrinks_token _).keeps.optional.bind_shrinks fun _ =>
          shrinks_name.bind fun _ =>
            (shrinks_balanced _ _).keeps.optional.bind fun _ =>
              keeps_get.bind fun _ => keeps_pure _

theorem keeps_modifier : Keeps modifier := by
  intro ts m r h
  unfold modifier at h
  repeat' split at h
  all_goals first
    | cases h; exact List.suffix_cons _ _
    | cases h

theorem keeps_binding : Keeps binding := by
  refine (shrinks_token _).keeps.bind fun _ => shrinks_name.keeps.bind fun n => ?_
  show Keeps (if n.1 ∈ placements then _ else _)
  split
  · exact (shrinks_balanced _ _).keeps.bind fun _ => keeps_pure _
  · exact keeps_pure _

theorem keeps_semantic : Keeps semantic := keeps_binding.many.bind fun _ => keeps_pure _

theorem keeps_param (p : Preprocessed) : Keeps (param p) :=
  keeps_get.bind fun _ =>
    keeps_modifier.many.bind fun _ =>
      (shrinks_typeName p).keeps.bind fun _ =>
        shrinks_name.keeps.bind fun _ =>
          (shrinks_balanced _ _).keeps.many.bind fun _ =>
            keeps_get.bind fun _ =>
              keeps_semantic.bind fun _ =>
                (((shrinks_token _).keeps.bind fun _ => keeps_scanUntil _).optional).bind fun _ =>
                  keeps_pure _

theorem keeps_params (p : Preprocessed) : Keeps (params p) := by
  refine (shrinks_token _).keeps.bind fun _ => ?_
  intro ts a r h
  have hv : Keeps voidParams :=
    (shrinks_accept _).keeps.bind fun _ => (shrinks_token _).keeps.bind fun _ => keeps_pure _
  have hs : Keeps (someParams p) :=
    ((shrinks_token _).keeps.sepBy (keeps_param p)).bind fun _ =>
      (shrinks_token _).keeps.bind fun _ => keeps_pure _
  simp only at h
  split at h
  · next ht => cases h; exact hv _ _ _ ht
  · exact hs _ _ _ h

theorem shrinks_function (p : Preprocessed) : Shrinks (function p) := by
  have hs : Shrinks (signature p) :=
    (shrinks_balanced _ _).keeps.many.bind_shrinks fun _ =>
      (((shrinks_accept _).bind fun _ => keeps_pure _).keeps.many).bind_shrinks fun _ =>
        (shrinks_typeName p).bind fun _ =>
          shrinks_name.keeps.bind fun _ =>
            (keeps_params p).bind fun _ =>
              keeps_semantic.bind fun _ => keeps_pure _
  exact hs.bind fun _ =>
    (((shrinks_balanced _ _).bind fun _ => keeps_pure _).orElse
      ((shrinks_token _).bind fun _ => keeps_pure _)).keeps

theorem shrinks_struct : Shrinks struct :=
  (shrinks_token _).bind fun _ =>
    shrinks_name.keeps.bind fun _ =>
      (shrinks_balanced _ _).keeps.bind fun _ =>
        (keeps_scanUntil _).bind fun _ => (shrinks_token _).keeps.bind fun _ => keeps_pure _

theorem shrinks_buffer : Shrinks buffer :=
  ((shrinks_token _).orElse (shrinks_token _)).bind fun _ =>
    shrinks_name.keeps.bind fun _ =>
      (((shrinks_token _).keeps.bind fun _ => keeps_scanUntil _).optional).bind fun _ =>
        (shrinks_balanced _ _).keeps.bind fun _ =>
          (shrinks_token _).keeps.optional.bind fun _ => keeps_pure _

theorem shrinks_typedef : Shrinks typedef := by
  refine keeps_get.bind_shrinks fun _ => (shrinks_token _).bind fun _ =>
    (keeps_scanUntil _).bind fun ts => (shrinks_token _).keeps.bind fun _ => ?_
  show Keeps (match ts.reverse.findSome? (·.token.name?) with | some n => _ | none => _)
  split
  · exact keeps_pure _
  · exact (shrinks_failAt _ _).keeps

theorem shrinks_global : Shrinks global := by
  refine keeps_get.bind_shrinks fun _ => (keeps_scanUntil _).bind_shrinks fun ts => ?_
  show Shrinks (if ts.isEmpty || hasFunctionBody 0 ts then _ else _)
  split
  · exact shrinks_failAt _ _
  · exact (shrinks_token _).bind fun _ => keeps_pure _

/-- **A declaration takes up at least one token.** -/
theorem shrinks_declaration (p : Preprocessed) : Shrinks (declaration p) :=
  shrinks_struct.orElse (shrinks_buffer.orElse (shrinks_typedef.orElse
    ((shrinks_function p).orElse (shrinks_global.orElse
      ((shrinks_token _).bind fun _ => keeps_pure _)))))

/-! ### All declarations -/

/-- Reads declarations up to the end of the tokens. -/
def declarations (p : Preprocessed) (ts : List Lexeme) : Except Fault (List Decl) :=
  if atEnd ts then .ok []
  else
    match _h : declaration p ts with
    | .ok (d, rest) => (declarations p rest).map (d :: ·)
    | .error e => .error e
termination_by ts.length
decreasing_by exact (shrinks_declaration p _ _ _ _h).2

end Grammar

/-- What is wrong with declarations, and where. -/
structure Error where
  /-- What is wrong. -/
  reason : Reason
  /-- The token at which it is. -/
  location : Location
  deriving DecidableEq, Repr

/-- The error as messages show it. -/
def Error.message (e : Error) : String := e.location.display ++ ": " ++ e.reason.message

/-- The declarations that the tokens of a text make up. -/
def parse (p : Preprocessed) (ts : List Lexeme) : Except Error (List Decl) :=
  (Grammar.declarations p ts).mapError fun f =>
    { reason := f.reason
      location := (f.rest.head?.bind fun t => p.location? t.span.start).getD .nowhere }

end PixelWrap.Decl
