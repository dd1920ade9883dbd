import PixelWrap.Preprocessed.Basic

/-!
# Tokens

## Main definitions

* `Symbol`: brackets, operators and other marks, with `symbols`, their spellings.
* `Keyword`: the reserved words, with `keywords`, their spellings.
* `Token`: tokens.
* `Lexeme`: a token and the stretch of text it was read from.
-/

namespace PixelWrap

/-- Brackets, operators and other marks. -/
inductive Symbol where
  /-- `{` -/
  | leftBrace
  /-- `}` -/
  | rightBrace
  /-- `(` -/
  | leftParen
  /-- `)` -/
  | rightParen
  /-- `[` -/
  | leftSquare
  /-- `]` -/
  | rightSquare
  /-- `<` -/
  | leftAngle
  /-- `>` -/
  | rightAngle
  /-- `;` -/
  | semicolon
  /-- `,` -/
  | comma
  /-- `?` -/
  | question
  /-- `:` -/
  | colon
  /-- `+` -/
  | plus
  /-- `-` -/
  | minus
  /-- `/` -/
  | slash
  /-- `%` -/
  | percent
  /-- `*` -/
  | asterisk
  /-- `|` -/
  | bar
  /-- `&` -/
  | ampersand
  /-- `^` -/
  | hat
  /-- `=` -/
  | equals
  /-- `#` -/
  | hash
  /-- `@` -/
  | at
  /-- `!` -/
  | exclamation
  /-- `~` -/
  | tilde
  /-- `.` -/
  | period
  /-- `==` -/
  | equalsEquals
  /-- `!=` -/
  | exclamationEquals
  /-- `\` -/
  | backslash
  deriving DecidableEq, Repr

/-- The spellings of the symbols.  The two of two characters stand first, so that
the first match is the longest. -/
def symbols : List (Text × Symbol) := [
  (['=', '='], .equalsEquals),
  (['!', '='], .exclamationEquals),
  (['{'], .leftBrace),
  (['}'], .rightBrace),
  (['('], .leftParen),
  ([')'], .rightParen),
  (['['], .leftSquare),
  ([']'], .rightSquare),
  (['<'], .leftAngle),
  (['>'], .rightAngle),
  ([';'], .semicolon),
  ([','], .comma),
  (['+'], .plus),
  (['-'], .minus),
  (['/'], .slash),
  (['%'], .percent),
  (['*'], .asterisk),
  (['|'], .bar),
  (['&'], .ampersand),
  (['^'], .hat),
  (['='], .equals),
  (['#'], .hash),
  (['@'], .at),
  (['!'], .exclamation),
  (['~'], .tilde),
  (['.'], .period),
  ([':'], .colon),
  (['?'], .question),
  (['\\'], .backslash)]

/-- The reserved words. -/
inductive Keyword where
  /-- `true` -/
  | trueValue
  /-- `false` -/
  | falseValue
  /-- `if` -/
  | ifBranch
  /-- `else` -/
  | elseBranch
  /-- `for` -/
  | forLoop
  /-- `while` -/
  | whileLoop
  /-- `do` -/
  | doLoop
  /-- `switch` -/
  | switch
  /-- `return` -/
  | returnValue
  /-- `struct` -/
  | struct
  /-- `cbuffer` -/
  | constantBuffer
  /-- `tbuffer` -/
  | textureBuffer
  /-- `typedef` -/
  | typedef
  /-- `in` -/
  | input
  /-- `out` -/
  | output
  /-- `inout` -/
  | inputOutput
  /-- `uniform` -/
  | uniform
  /-- `const` -/
  | const
  /-- `unsigned` -/
  | unsigned
  /-- `extern` -/
  | external
  /-- `static` -/
  | static
  /-- `inline` -/
  | inlined
  /-- `groupshared` -/
  | groupShared
  deriving DecidableEq, Repr

/-- The spellings of the reserved words. -/
def keywords : List (String × Keyword) := [
  ("true", .trueValue),
  ("false", .falseValue),
  ("if", .ifBranch),
  ("else", .elseBranch),
  ("for", .forLoop),
  ("while", .whileLoop),
  ("do", .doLoop),
  ("switch", .switch),
  ("return", .returnValue),
  ("struct", .struct),
  ("cbuffer", .constantBuffer),
  ("tbuffer", .textureBuffer),
  ("typedef", .typedef),
  ("in", .input),
  ("out", .output),
  ("inout", .inputOutput),
  ("uniform", .uniform),
  ("const", .const),
  ("unsigned", .unsigned),
  ("extern", .external),
  ("static", .static),
  ("inline", .inlined),
  ("groupshared", .groupShared)]

/-- A token.  Numbers with a fraction or an exponent are kept as the words that
encode them. -/
inductive Token where
  /-- The end of the text. -/
  | eof
  /-- A name. -/
  | name (n : String)
  /-- A whole number. -/
  | int (value : UInt64)
  /-- A whole number marked as unsigned. -/
  | uint (value : UInt64)
  /-- A whole number marked as long. -/
  | long (value : UInt64)
  /-- A number marked as of half precision, held in single precision. -/
  | half (word : UInt32)
  /-- A number of single precision. -/
  | float (word : UInt32)
  /-- A number of double precision. -/
  | double (word : UInt64)
  /-- A string literal: the text between its quotes, with its escapes. -/
  | string (raw : String)
  /-- A reserved word. -/
  | keyword (k : Keyword)
  /-- A symbol. -/
  | symbol (s : Symbol)
  deriving DecidableEq, Repr

/-- The name that a token is. -/
def Token.name? : Token → Option String
  | .name n => some n
  | _ => none

/-- A token and the stretch of text it was read from. -/
structure Lexeme where
  /-- The token. -/
  token : Token
  /-- Where it stands. -/
  span : Span
  deriving DecidableEq, Repr

end PixelWrap
