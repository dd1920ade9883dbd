import PixelWrap.Condition.Token

/-!
# Reading conditions

Operators between two operands associate to the left, level by level, and the
conditional operator to the right.

The functions below call each other; each call drops `(number of tokens, level)` in
lexicographic order, and the type of a result says that it leaves fewer tokens.

## Main definitions

* `Condition.parseChoice`, `Condition.parseLevel`, `Condition.parseUnary`: read an
  expression of the given kind from the front of the tokens.
* `Condition.parse?`: reads a whole condition.
* `Condition.holds?`: whether a condition holds.
-/

namespace PixelWrap.Condition

/-- An expression and the tokens after it, of which there are fewer than before. -/
abbrev Parsed (ts : List Token) := Expr × { r : List Token // r.length < ts.length }

/-- The operator in front of an operand that a token stands for. -/
def Token.unaryOp? : Token → Option UnaryOp
  | .bang => some .not
  | .op .sub => some .neg
  | .tilde => some .complement
  | .op .add => some .plus
  | _ => none

/-- The operand that a token is by itself. -/
def Token.operand? : Token → Option Expr
  | .number v => some (.number v)
  | .name n => some (.name n)
  | _ => none

/-- The tokens after the token `k`, if that comes first. -/
def after? (k : Token) : (ts : List Token) → Option { r : List Token // r.length < ts.length }
  | [] => none
  | t :: r => if t = k then some ⟨r, Nat.lt_succ_self _⟩ else none

/-- The operator of the given level that comes first, and the tokens after it. -/
def operator? (level : Nat) :
    (ts : List Token) → Option (BinaryOp × { r : List Token // r.length < ts.length })
  | .op o :: r => if o.level = level then some (o, ⟨r, Nat.lt_succ_self _⟩) else none
  | _ => none

mutual

/-- Reads an expression: operands of the loosest level with `?` and `:` after the
first of them. -/
def parseChoice (ts : List Token) : Option (Parsed ts) :=
  match parseLevel BinaryOp.topLevel ts with
  | none => none
  | some (c, ⟨rest, hc⟩) =>
    match after? .question rest with
    | none => some (c, ⟨rest, hc⟩)
    | some ⟨first, hf⟩ =>
      match parseChoice first with
      | none => none
      | some (t, ⟨middle, ht⟩) =>
        match after? .colon middle with
        | none => none
        | some ⟨second, hs⟩ =>
          match parseChoice second with
          | none => none
          | some (e, ⟨r, he⟩) => some (.choice c t e, ⟨r, by omega⟩)
termination_by (ts.length, BinaryOp.topLevel + 2)
decreasing_by
  · exact Prod.Lex.right _ (by omega)
  · exact Prod.Lex.left _ _ (by omega)
  · exact Prod.Lex.left _ _ (by omega)

/-- Reads an expression whose outermost operators are of level `k` or tighter. -/
def parseLevel (k : Nat) (ts : List Token) : Option (Parsed ts) :=
  match k with
  | 0 => parseUnary ts
  | k + 1 =>
    match parseLevel k ts with
    | none => none
    | some (l, ⟨rest, hl⟩) =>
      (parseOperators k l rest).map fun (e, r) => (e, ⟨r.val, Nat.lt_of_le_of_lt r.property hl⟩)
termination_by (ts.length, k + 1)
decreasing_by
  · exact Prod.Lex.right _ (by omega)
  · exact Prod.Lex.right _ (by omega)
  · exact Prod.Lex.left _ _ hl

/-- Goes on after the operand `l` with operators of level `k + 1` and their right
operands. -/
def parseOperators (k : Nat) (l : Expr) (ts : List Token) :
    Option (Expr × { r : List Token // r.length ≤ ts.length }) :=
  match operator? (k + 1) ts with
  | none => some (l, ⟨ts, Nat.le_refl _⟩)
  | some (o, ⟨rest, ho⟩) =>
    match parseLevel k rest with
    | none => none
    | some (r, ⟨rest', hr⟩) =>
      (parseOperators k (.binary o l r) rest').map fun (e, r') =>
        (e, ⟨r'.val, by have := r'.property; omega⟩)
termination_by (ts.length, 0)
decreasing_by
  · exact Prod.Lex.left _ _ ho
  · exact Prod.Lex.left _ _ (by omega)

/-- Reads an operand: a number, a name or an expression in parentheses, with
operators in front of it. -/
def parseUnary (ts : List Token) : Option (Parsed ts) :=
  match ts with
  | [] => none
  | k :: rest =>
    match k.unaryOp? with
    | some op =>
      (parseUnary rest).map fun (e, r) =>
        (.unary op e, ⟨r.val, Nat.lt_succ_of_lt r.property⟩)
    | none =>
      match k.operand? with
      | some e => some (e, ⟨rest, Nat.lt_succ_self _⟩)
      | none =>
        if k = .leftParen then
          match parseChoice rest with
          | none => none
          | some (e, ⟨inner, hi⟩) =>
            (after? .rightParen inner).map fun r =>
              (e, ⟨r.val, by have := r.property; simp only [List.length_cons]; omega⟩)
        else none
termination_by (ts.length, 0)
decreasing_by all_goals exact Prod.Lex.left _ _ (Nat.lt_succ_self _)

end

/-- The expression that the tokens spell. -/
def parse? (ts : List Token) : Option Expr :=
  match parseChoice ts with
  | some (e, ⟨[], _⟩) => some e
  | _ => none

/-- Whether a condition holds: it does if its value is not zero.  `none` if the text
is no condition or has no value. -/
def holds? (t : Text) : Option Bool := do
  let e ← parse? (← tokens? t)
  return (← e.eval?) != 0

end PixelWrap.Condition
