import PixelWrap.Condition.Expr
import PixelWrap.Number.Digits

/-!
# Tokens of a condition

## Main definitions

* `Condition.Token`: tokens.
* `Condition.spellings`: the spelling of each operator and mark.
* `Condition.number?`: reads a literal number.
* `Condition.tokens?`: cuts a text into tokens.
-/

namespace PixelWrap.Condition

/-- A token of a condition. -/
inductive Token where
  /-- A literal number. -/
  | number (value : Int64)
  /-- A name. -/
  | name (n : String)
  /-- An operator with two operands; `+` and `-` also stand in front of one. -/
  | op (o : BinaryOp)
  /-- `!` -/
  | bang
  /-- `~` -/
  | tilde
  /-- `(` -/
  | leftParen
  /-- `)` -/
  | rightParen
  /-- `?` -/
  | question
  /-- `:` -/
  | colon
  deriving DecidableEq, Repr

/-- The spellings of operators and marks.  A spelling stands before every shorter
one that it starts with, so that the first match is the longest. -/
def spellings : List (Text × Token) := [
  (['|', '|'], .op .logicalOr),
  (['&', '&'], .op .logicalAnd),
  (['=', '='], .op .equal),
  (['!', '='], .op .notEqual),
  (['<', '='], .op .lessEqual),
  (['>', '='], .op .greaterEqual),
  (['<', '<'], .op .shiftLeft),
  (['>', '>'], .op .shiftRight),
  (['|'], .op .bitOr),
  (['^'], .op .bitXor),
  (['&'], .op .bitAnd),
  (['<'], .op .less),
  (['>'], .op .greater),
  (['+'], .op .add),
  (['-'], .op .sub),
  (['*'], .op .mul),
  (['/'], .op .div),
  (['%'], .op .rem),
  (['!'], .bang),
  (['~'], .tilde),
  (['('], .leftParen),
  ([')'], .rightParen),
  (['?'], .question),
  ([':'], .colon)]

/-- The operator or mark that the text starts with, and its spelling. -/
def spelling? (t : Text) : Option (Text × Token) :=
  spellings.find? fun (s, _) => s.isPrefixOf t

/-- A letter that may follow the digits of a number and says nothing here. -/
def isNumberSuffix (c : Char) : Bool := c == 'u' || c == 'U' || c == 'l' || c == 'L'

/-- The numbers below this fit into a signed word. -/
def signedLimit : Nat := 0x8000000000000000

/-- The number that digits spell, if they are digits of the base and the number
fits into a signed word. -/
def value? (base : Nat) (ds : Text) : Option Int64 :=
  if ds.all (digitValue · < base) && ofDigits base ds < signedLimit then
    some (Int64.ofNat (ofDigits base ds))
  else none

/-- The digits of a hexadecimal number that the text starts with, without the `0x`
in front of them; none if it does not start with one. -/
def hexDigits (t : Text) : Text :=
  match t with
  | '0' :: x :: r => if x == 'x' || x == 'X' then r.takeWhile isHexDigit else []
  | _ => []

/-- The digits of a number that the text starts with. -/
def decDigits (t : Text) : Text := t.takeWhile Char.isDigit

/-- The value of the number that the text starts with, if it fits.  A zero in front
of other digits starts an octal number. -/
def number? (t : Text) : Option Int64 :=
  if (hexDigits t).isEmpty then
    match decDigits t with
    | '0' :: d :: ds => value? 8 (d :: ds)
    | ds => value? 10 ds
  else value? 16 (hexDigits t)

/-- The length of the number that the text starts with, its suffix aside. -/
def numberLength (t : Text) : Nat :=
  if (hexDigits t).isEmpty then (decDigits t).length else (hexDigits t).length + 2

/-- Cuts a condition into tokens; `none` if some of it is no token. -/
def tokens? : Text → Option (List Token)
  | [] => some []
  | c :: r =>
    if isBlank c then tokens? r
    else if c.isDigit then
      (number? (c :: r)).bind fun v =>
        (tokens? ((r.drop (numberLength (c :: r) - 1)).dropWhile isNumberSuffix)).map
          (.number v :: ·)
    else if isNameStart c then
      (tokens? (r.dropWhile isNameChar)).map
        (.name (String.ofList (c :: r.takeWhile isNameChar)) :: ·)
    else
      (spelling? (c :: r)).bind fun (s, k) =>
        (tokens? (r.drop (s.length - 1))).map (k :: ·)
termination_by t => t.length
decreasing_by
  all_goals simp only [List.length_cons]
  · omega
  · have h₁ := (List.dropWhile_suffix (l := r.drop (numberLength (c :: r) - 1))
      isNumberSuffix).length_le
    have h₂ := (List.drop_suffix (numberLength (c :: r) - 1) r).length_le
    omega
  · have := (List.dropWhile_suffix (l := r) isNameChar).length_le
    omega
  · have := (List.drop_suffix (s.length - 1) r).length_le
    omega

end PixelWrap.Condition
