import PixelWrap.Number.Binary
import PixelWrap.Number.Digits
import PixelWrap.Token.Basic

/-!
# Cutting text into tokens

Each reader below looks at the front of a text and returns the token it finds there
with the characters that the token takes up.  The readers are tried in a fixed
order, numbers first.  Blanks and comments separate tokens.

## Main definitions

* `Token.float?`, `Token.int?`, `Token.string?`, `Token.word?`, `Token.symbol?`: the
  readers.
* `Token.first?`: reads one token.
* `Token.splitGap`: the blanks and comments that a text starts with.
* `Token.tokens`: the tokens of a text.
* `Token.lex`: the tokens of preprocessed text.
* `Token.Error`: why a text cannot be cut into tokens.
-/

namespace PixelWrap.Token

/-! ### Whole numbers -/

/-- The number that digits spell, if it fits into a word. -/
def fitting? (base : Nat) (ds : Text) : Option UInt64 :=
  if ds.isEmpty then none
  else if ofDigits base ds < UInt64.size then some (UInt64.ofNat (ofDigits base ds))
  else none

/-- A hexadecimal number: `0x` and digits. -/
def hexNumber? : Text → Option (UInt64 × Text)
  | '0' :: x :: r =>
    if x == 'x' || x == 'X' then
      (fitting? 16 (r.takeWhile isHexDigit)).map (·, '0' :: x :: r.takeWhile isHexDigit)
    else none
  | _ => none

/-- An octal number: a zero and digits. -/
def octNumber? : Text → Option (UInt64 × Text)
  | '0' :: r => (fitting? 8 (r.takeWhile isOctDigit)).map (·, '0' :: r.takeWhile isOctDigit)
  | _ => none

/-- A decimal number. -/
def decNumber? (t : Text) : Option (UInt64 × Text) :=
  (fitting? 10 (t.takeWhile Char.isDigit)).map (·, t.takeWhile Char.isDigit)

/-- Reads a whole number with at most one letter after it.  A number that does not
fit is not read as such, but a number of another base at the same place may be. -/
def int? (t : Text) : Option (Token × Text) := do
  let (value, digits) ← (hexNumber? t).or ((octNumber? t).or (decNumber? t))
  match t.drop digits.length with
  | c :: _ =>
    if c == 'u' || c == 'U' then return (.uint value, digits ++ [c])
    else if c == 'l' || c == 'L' then return (.long value, digits ++ [c])
    else return (.int value, digits)
  | [] => return (.int value, digits)

/-! ### Numbers with a fraction or an exponent -/

/-- A decimal number `digits * 10 ^ scale` and the characters it takes up. -/
structure Decimal where
  /-- Its digits. -/
  digits : Nat
  /-- Its power of ten. -/
  scale : Int
  /-- The characters that spell it. -/
  lexeme : Text
  deriving DecidableEq, Repr

/-- An exponent: its value and the characters it takes up. -/
def exponent? : Text → Option (Int × Text)
  | [] => none
  | e :: r =>
    if e == 'e' || e == 'E' then
      let sign := (r.take 1).filter fun c => c == '+' || c == '-'
      let digits := (r.drop sign.length).takeWhile Char.isDigit
      if digits.isEmpty then none
      else
        let value : Int := ofDigits 10 digits
        some (if sign == ['-'] then -value else value, e :: sign ++ digits)
    else none

/-- A number with a point or an exponent: digits on at least one side of a point and
perhaps an exponent, or digits and an exponent. -/
def decimal? (t : Text) : Option Decimal :=
  let whole := t.takeWhile Char.isDigit
  match t.dropWhile Char.isDigit with
  | '.' :: r =>
    let fraction := r.takeWhile Char.isDigit
    if whole.isEmpty && fraction.isEmpty then none
    else
      let (e, spelled) := (exponent? (r.dropWhile Char.isDigit)).getD (0, [])
      some {
        digits := ofDigits 10 (whole ++ fraction)
        scale := e - fraction.length
        lexeme := whole ++ '.' :: fraction ++ spelled }
  | r =>
    if whole.isEmpty then none
    else (exponent? r).map fun (e, spelled) => ⟨ofDigits 10 whole, e, whole ++ spelled⟩

/-- Reads a number with a fraction or an exponent and at most one letter after it.
Its value is rounded to double precision first, and from there to single precision
unless it is marked as long. -/
def float? (t : Text) : Option (Token × Text) := do
  let d ← decimal? t
  let wide := Number.double.ofDecimal d.digits d.scale
  let narrow := UInt32.ofNat (Number.double.convert Number.single wide)
  match t.drop d.lexeme.length with
  | c :: _ =>
    if c == 'h' || c == 'H' then return (.half narrow, d.lexeme ++ [c])
    else if c == 'f' || c == 'F' then return (.float narrow, d.lexeme ++ [c])
    else if c == 'l' || c == 'L' then return (.double (UInt64.ofNat wide), d.lexeme ++ [c])
    else return (.float narrow, d.lexeme)
  | [] => return (.float narrow, d.lexeme)

/-! ### Strings, words and symbols -/

/-- The text up to the next quote that no backslash escapes, if there is one on the
line. -/
def untilQuote? : Text → Option Text
  | [] => none
  | '\\' :: c :: r => (untilQuote? r).map fun s => '\\' :: c :: s
  | c :: r =>
    if c == '"' then some []
    else if c == '\n' then none
    else (untilQuote? r).map (c :: ·)

/-- Reads a string literal that is closed on its line. -/
def string? : Text → Option (Token × Text)
  | '"' :: r => (untilQuote? r).map fun raw => (.string (String.ofList raw), '"' :: raw ++ ['"'])
  | _ => none

/-- The token that a word is: a reserved word or a name. -/
def ofWord (w : String) : Token :=
  match keywords.lookup w with
  | some k => .keyword k
  | none => .name w

/-- Reads a name or a reserved word. -/
def word? (t : Text) : Option (Token × Text) :=
  let w := (Text.splitName t).1
  if w.isEmpty then none else some (ofWord (String.ofList w), w)

/-- Reads a symbol. -/
def symbol? (t : Text) : Option (Token × Text) :=
  (symbols.find? fun (s, _) => s.isPrefixOf t).map fun (s, k) => (.symbol k, s)

/-- Reads one token and the characters it takes up. -/
def first? (t : Text) : Option (Token × Text) :=
  (float? t).or ((int? t).or ((string? t).or ((word? t).or (symbol? t))))

/-! ### Gaps -/

/-- The blanks and comments that a text starts with, and the text after them.  A block
comment that nothing closes is no gap. -/
def splitGap : Text → Text × Text
  | [] => ([], [])
  | '/' :: '/' :: r =>
    let (gap, rest) := splitGap (r.dropWhile (· != '\n'))
    ('/' :: '/' :: r.takeWhile (· != '\n') ++ gap, rest)
  | '/' :: '*' :: r =>
    match _h : Text.cut? ['*', '/'] r with
    | some (comment, after) =>
      let (gap, rest) := splitGap after
      ('/' :: '*' :: comment ++ '*' :: '/' :: gap, rest)
    | none => ([], '/' :: '*' :: r)
  | c :: r =>
    if isBlank c then
      let (gap, rest) := splitGap r
      (c :: gap, rest)
    else ([], c :: r)
termination_by t => t.length
decreasing_by
  · have := (List.dropWhile_suffix (l := r) (· != '\n')).length_le
    simp only [List.length_cons]
    omega
  · have := congrArg List.length (Text.eq_of_cut? _h)
    simp only [List.length_append, List.length_cons] at this ⊢
    omega
  · exact Nat.lt_succ_self _

/-- A text is the gap it starts with and the text after it. -/
theorem splitGap_append (t : Text) : (splitGap t).1 ++ (splitGap t).2 = t := by
  fun_induction splitGap t with
  | case1 => rfl
  | case2 r gap rest h ih =>
    rw [h] at ih
    simp [ih]
  | case3 r comment after hc gap rest h ih =>
    rw [h] at ih
    rw [Text.eq_of_cut? hc]
    simp [ih]
  | case4 => rfl
  | case5 c r _ _ _ gap rest h ih =>
    rw [h] at ih
    simp [ih]
  | case6 => rfl

/-! ### All tokens -/

/-- Whether the text starts with a block comment. -/
def startsComment (t : Text) : Bool := ['/', '*'].isPrefixOf t

/-- The tokens of a text that starts at `offset`, or the part of the text from which
no token can be read. -/
def tokensFrom (offset : Nat) (t : Text) : Except Text (List Lexeme) :=
  match _h : splitGap t with
  | (_, []) => .ok []
  | (gap, c :: r) =>
    if startsComment (c :: r) then .error (c :: r)
    else
      match first? (c :: r) with
      | none => .error (c :: r)
      | some (k, lexeme) =>
        let start := offset + Text.size gap
        let stop := start + Text.size lexeme
        (tokensFrom stop (r.drop (lexeme.length - 1))).map (⟨k, ⟨start, stop⟩⟩ :: ·)
termination_by t.length
decreasing_by
  have h₁ := congrArg List.length (splitGap_append t)
  have h₂ := (List.drop_suffix (lexeme.length - 1) r).length_le
  rw [_h, List.length_append, List.length_cons] at h₁
  omega

/-- The tokens of a text. -/
def tokens (t : Text) : Except Text (List Lexeme) := tokensFrom 0 t

/-! ### Preprocessed text -/

/-- Why a text cannot be cut into tokens. -/
inductive Error where
  /-- No token starts like this. -/
  | failedToParse (location : Location) (snippet : String)
  /-- A string or a comment is not closed. -/
  | unexpectedEndOfStream (location : Location)
  deriving DecidableEq, Repr

/-- The error as messages show it. -/
def Error.message : Error → String
  | .failedToParse l snippet => l.display ++ ": failed to parse token near `" ++ snippet ++ "`"
  | .unexpectedEndOfStream l => l.display ++ ": unexpected end of stream"

/-- The number of characters that a message shows. -/
def snippetLength : Nat := 20

/-- The error for a text from which no token can be read. -/
def errorAt (p : Preprocessed) (rest : Text) : Error :=
  let location := (p.location? (Text.size p.code - Text.size rest)).getD .nowhere
  if startsComment rest || rest.head? == some '"' then .unexpectedEndOfStream location
  else .failedToParse location (String.ofList ((Text.firstLine rest).take snippetLength))

/-- The tokens of preprocessed text; the last one marks its end. -/
def lex (p : Preprocessed) : Except Error (List Lexeme) :=
  match tokens p.code with
  | .ok ts => .ok (ts ++ [⟨.eof, ⟨Text.size p.code, Text.size p.code⟩⟩])
  | .error rest => .error (errorAt p rest)

end PixelWrap.Token
