/-!
# Conditions as expressions

The condition of an `#if` directive is an integer expression.  Its value is
computed on words of 64 bits that wrap around, every part of the expression is
evaluated, and some operations have no value.

## Main definitions

* `Condition.UnaryOp`, `Condition.BinaryOp`: the operators.
* `Condition.Expr`: expressions.
* `Condition.Expr.eval?`: the value of an expression, if each of its parts has one.
-/

namespace PixelWrap.Condition

/-- Operators in front of an operand. -/
inductive UnaryOp where
  /-- `!`: one for zero, zero for anything else. -/
  | not
  /-- `-`: the negative. -/
  | neg
  /-- `~`: all bits inverted. -/
  | complement
  /-- `+`: the operand itself. -/
  | plus
  deriving DecidableEq, Repr

/-- Operators between two operands. -/
inductive BinaryOp where
  /-- `||` -/
  | logicalOr
  /-- `&&` -/
  | logicalAnd
  /-- `|` -/
  | bitOr
  /-- `^` -/
  | bitXor
  /-- `&` -/
  | bitAnd
  /-- `==` -/
  | equal
  /-- `!=` -/
  | notEqual
  /-- `<` -/
  | less
  /-- `>` -/
  | greater
  /-- `<=` -/
  | lessEqual
  /-- `>=` -/
  | greaterEqual
  /-- `<<` -/
  | shiftLeft
  /-- `>>` -/
  | shiftRight
  /-- `+` -/
  | add
  /-- `-` -/
  | sub
  /-- `*` -/
  | mul
  /-- `/` -/
  | div
  /-- `%` -/
  | rem
  deriving DecidableEq, Repr

/-- The level of an operator: of two operators the one of lower level binds its
operands more tightly. -/
def BinaryOp.level : BinaryOp → Nat
  | .mul | .div | .rem => 1
  | .add | .sub => 2
  | .shiftLeft | .shiftRight => 3
  | .less | .greater | .lessEqual | .greaterEqual => 4
  | .equal | .notEqual => 5
  | .bitAnd => 6
  | .bitXor => 7
  | .bitOr => 8
  | .logicalAnd => 9
  | .logicalOr => 10

/-- The level of the loosest operators. -/
def BinaryOp.topLevel : Nat := 10

theorem BinaryOp.level_le_topLevel (op : BinaryOp) : op.level ≤ topLevel := by
  cases op <;> decide

/-- An expression. -/
inductive Expr where
  /-- A literal number. -/
  | number (value : Int64)
  /-- A name that is no macro; it counts as zero. -/
  | name (n : String)
  /-- An operator in front of its operand. -/
  | unary (op : UnaryOp) (e : Expr)
  /-- An operator between its operands. -/
  | binary (op : BinaryOp) (l r : Expr)
  /-- `c ? t : e`, the value of `t` or of `e` by whether `c` has a value other than
  zero. -/
  | choice (c t e : Expr)
  deriving DecidableEq, Repr

/-- One for true and zero for false. -/
def truth (b : Bool) : Int64 := if b then 1 else 0

/-- The value of a unary operator. -/
def UnaryOp.apply : UnaryOp → Int64 → Int64
  | .not, v => truth (v == 0)
  | .neg, v => -v
  | .complement, v => ~~~v
  | .plus, v => v

/-- Whether a quotient exists: the divisor is not zero, and the quotient is not the
one that would lie beyond the largest number. -/
def divides (l r : Int64) : Bool :=
  r != 0 && !(l == Int64.minValue && r == -1)

/-- Whether a word can be shifted by this amount. -/
def shifts (r : Int64) : Bool := 0 ≤ r && r < 64

/-- The value of a binary operator, if it has one. -/
def BinaryOp.apply? : BinaryOp → Int64 → Int64 → Option Int64
  | .logicalOr, l, r => some (truth (l != 0 || r != 0))
  | .logicalAnd, l, r => some (truth (l != 0 && r != 0))
  | .bitOr, l, r => some (l ||| r)
  | .bitXor, l, r => some (l ^^^ r)
  | .bitAnd, l, r => some (l &&& r)
  | .equal, l, r => some (truth (l == r))
  | .notEqual, l, r => some (truth (l != r))
  | .less, l, r => some (truth (l < r))
  | .greater, l, r => some (truth (l > r))
  | .lessEqual, l, r => some (truth (l ≤ r))
  | .greaterEqual, l, r => some (truth (l ≥ r))
  | .shiftLeft, l, r => if shifts r then some (l <<< r) else none
  | .shiftRight, l, r => if shifts r then some (l >>> r) else none
  | .add, l, r => some (l + r)
  | .sub, l, r => some (l - r)
  | .mul, l, r => some (l * r)
  | .div, l, r => if divides l r then some (l / r) else none
  | .rem, l, r => if divides l r then some (l % r) else none

/-- The value of an expression.  Every part is evaluated, also one that the value
does not depend on, and the expression has no value if one of them has none. -/
def Expr.eval? : Expr → Option Int64
  | .number v => some v
  | .name _ => some 0
  | .unary op e => e.eval?.map op.apply
  | .binary op l r => do op.apply? (← l.eval?) (← r.eval?)
  | .choice c t e => do
    let c ← c.eval?
    let t ← t.eval?
    let e ← e.eval?
    return if c != 0 then t else e

end PixelWrap.Condition
