import PixelWrap.Proofs.Expressions

/-!
# Operands that C does not evaluate

In C an operand that the value of an expression does not depend on is not evaluated: the
right operand of `&&` after a zero, that of `||` after anything else, and the branch of a
choice that is not taken.  So an expression may have a value in C although a part of it has
none.  Conditions are evaluated in all of their parts instead.  The two agree on the value
where both give one, and what makes the difference is whether each operand that C leaves out
has a value of its own.

What is taken from C here is which operands are evaluated.  Numbers and operators are those of
conditions in both ways: values are signed words of 64 bits, and the suffix of an unsigned number
does not count, so that `-1 < 0u` is true here and false in C.

## Main definitions

* `Condition.BinaryOp.settled?`: the value of an operator whose left operand settles it.
* `Condition.Evaluates`: the value of an expression if operands are left out as in C, and which
  ones are.
* `Condition.allValued`: each part of each of the expressions has a value.

## Main results

* `Condition.Evaluates.value?_eq`: all parts of an expression have a value just if those that
  C leaves out have one, and then its value is the same without them.
* `Condition.holds?_of_evaluates`: **a condition has the truth value that it has without the
  operands that C leaves out if these have values, and none otherwise.**
-/

namespace PixelWrap.Condition

/-! ### Evaluation that leaves operands out -/

/-- The value of an operator between two operands, if the value `x` of the left one settles
it. -/
def BinaryOp.settled? : BinaryOp → Int → Option Int
  | .logicalAnd, x => if x = 0 then some 0 else none
  | .logicalOr, x => if x = 0 then none else some 1
  | _, _ => none

/-- `Evaluates e v us`: the expression `e` has the value `v` if operands are left out as in C, and
the operands `us` are those that are not evaluated.  Values are signed words of 64 bits, whatever
the suffixes of the numbers are. -/
inductive Evaluates : Expr → Int → List Expr → Prop
  | number (n : Int64) : Evaluates (.number n) n.toInt []
  | name (n : String) : Evaluates (.name n) 0 []
  | unary {op : UnaryOp} {e : Expr} {v : Int} {us : List Expr} : Evaluates e v us →
      Evaluates (.unary op e) (op.value v) us
  /-- The left operand settles the value, and the right one is left out. -/
  | settled {op : BinaryOp} {l r : Expr} {x v : Int} {us : List Expr} : Evaluates l x us →
      op.settled? x = some v → Evaluates (.binary op l r) v (us ++ [r])
  /-- Both operands are evaluated. -/
  | both {op : BinaryOp} {l r : Expr} {x y v : Int} {us ws : List Expr} : Evaluates l x us →
      op.settled? x = none → Evaluates r y ws → op.value? x y = some v →
      Evaluates (.binary op l r) v (us ++ ws)
  /-- The first branch is taken. -/
  | first {c t e : Expr} {x v : Int} {us ws : List Expr} : Evaluates c x us → x ≠ 0 →
      Evaluates t v ws → Evaluates (.choice c t e) v (us ++ (ws ++ [e]))
  /-- The second branch is taken. -/
  | second {c t e : Expr} {v : Int} {us ws : List Expr} : Evaluates c 0 us →
      Evaluates e v ws → Evaluates (.choice c t e) v (us ++ (t :: ws))

/-- Whether each part of each of the expressions has a value. -/
def allValued (es : List Expr) : Bool := es.all fun e => e.value?.isSome

@[simp] theorem allValued_nil : allValued [] = true := rfl

@[simp] theorem allValued_cons (e : Expr) (es : List Expr) :
    allValued (e :: es) = (e.value?.isSome && allValued es) := rfl

@[simp] theorem allValued_append (es fs : List Expr) :
    allValued (es ++ fs) = (allValued es && allValued fs) := List.all_append

/-! ### Both ways of evaluation -/

/-- What the left operand settles does not depend on the right one. -/
theorem BinaryOp.value?_of_settled? {op : BinaryOp} {x v : Int} (h : op.settled? x = some v)
    (y : Int) : op.value? x y = some v := by
  unfold BinaryOp.settled? at h
  split at h
  · split at h
    · next hx =>
      cases h
      simp [BinaryOp.value?, hx]
    · cases h
  · split at h
    · cases h
    · next hx =>
      cases h
      simp [BinaryOp.value?, hx]
  · cases h

/-- **The value is the same with the operands that are left out, if these have values.**  If one
of them has none, there is no value. -/
theorem Evaluates.value?_eq {e : Expr} {v : Int} {us : List Expr} (h : Evaluates e v us) :
    e.value? = if allValued us then some v else none := by
  induction h with
  | number n => rfl
  | name n => rfl
  | @unary op e v us _ ih =>
    rw [Expr.value?, ih]
    by_cases hus : allValued us = true
    · simp [hus]
    · simp [hus]
  | @settled op l r x v us _ hsettled ih =>
    rw [Expr.value?, ih]
    by_cases hus : allValued us = true
    · cases hr : r.value? with
      | none => simp [hus, hr]
      | some y => simp [hus, hr, BinaryOp.value?_of_settled? hsettled]
    · simp [hus]
  | @both op l r x y v us ws _ _ _ hvalue ihl ihr =>
    rw [Expr.value?, ihl, ihr]
    by_cases hus : allValued us = true
    · by_cases hws : allValued ws = true
      · simp [hus, hws, hvalue]
      · simp [hus, hws]
    · simp [hus]
  | @first c t e x v us ws _ hx _ ihc iht =>
    rw [Expr.value?, ihc, iht]
    by_cases hus : allValued us = true
    · by_cases hws : allValued ws = true
      · cases he : e.value? with
        | none => simp [hus, hws, he]
        | some z => simp [hus, hws, he, hx]
      · simp [hus, hws]
    · simp [hus]
  | @second c t e v us ws _ _ ihc ihe =>
    rw [Expr.value?, ihc, ihe]
    by_cases hus : allValued us = true
    · cases ht : t.value? with
      | none => simp [hus, ht]
      | some y =>
        by_cases hws : allValued ws = true
        · simp [hus, hws, ht]
        · simp [hus, hws]
    · simp [hus]

/-! ### Conditions -/

/-- The truth value of a condition is that of the expression it renders. -/
theorem holds?_of_rendered {e : Expr} {ts : List Token} {t : Text} (ht : Rendered ts t)
    (he : Derives choiceLevel e ts) : holds? t = e.value?.map fun v => decide (v ≠ 0) := by
  rw [holds?, tokens?_of_rendered ht he.likeOperand.chain, ← eval?_map_toInt, Option.map_map]
  simp only [Option.bind_eq_bind, Option.bind_some, he.parse?_eq]
  cases e.eval? with
  | none => rfl
  | some w =>
    refine congrArg some ?_
    rw [Bool.eq_iff_iff]
    simp [toInt_eq_zero_iff]

/-- **A condition that has a value without the operands that C leaves out has the truth value of
that value if each of these operands has a value of its own, and otherwise it has none.** -/
theorem holds?_of_evaluates {e : Expr} {ts : List Token} {t : Text} {v : Int} {us : List Expr}
    (ht : Rendered ts t) (he : Derives choiceLevel e ts) (hv : Evaluates e v us) :
    holds? t = if allValued us then some (decide (v ≠ 0)) else none := by
  rw [holds?_of_rendered ht he, hv.value?_eq]
  split
  · rfl
  · rfl

/-! ### A quotient that C does not evaluate -/

/-- An expression of a level is one of each looser level. -/
theorem Derives.looser {j k : Nat} {e : Expr} {ts : List Token} (h : Derives j e ts)
    (hjk : j ≤ k) (hk : k ≤ choiceLevel) : Derives k e ts := by
  induction hjk with
  | refl => exact h
  | step _ ih => exact .tighter hk (ih (Nat.le_of_succ_le hk))

/-- `0 && 1 / n` -/
def guardedQuotient (n : Int64) : Expr :=
  .binary .logicalAnd (.number 0) (.binary .div (.number 1) (.number n))

theorem derives_guardedQuotient (n : Int64) : Derives choiceLevel (guardedQuotient n)
    [.number 0, .op .logicalAnd, .number 1, .op .div, .number n] := by
  have hquotient : Derives 1 (.binary .div (.number 1) (.number n))
      [.number 1, .op .div, .number n] :=
    .binary (k := 0) rfl ((Derives.number 1).looser (by decide) (by decide)) (.number n)
  have hleft : Derives 9 (.number 0) [.number 0] :=
    (Derives.number 0).looser (by decide) (by decide)
  have hconjunction : Derives 9 (guardedQuotient n)
      [.number 0, .op .logicalAnd, .number 1, .op .div, .number n] :=
    .binary (k := 8) rfl hleft (hquotient.looser (by decide) (by decide))
  exact hconjunction.looser (by decide) le_rfl

theorem evaluates_guardedQuotient (n : Int64) :
    Evaluates (guardedQuotient n) 0 [.binary .div (.number 1) (.number n)] :=
  .settled (.number 0) rfl

/-- A quotient that has a value does no harm. -/
theorem holds?_of_evaluates_quotient :
    Rendered [.number 0, .op .logicalAnd, .number 1, .op .div, .number 1] "0 && 1 / 1".toList ∧
      allValued [.binary .div (.number 1) (.number 1)] = true ∧
      holds? "0 && 1 / 1".toList = some false := by
  have ht : Rendered [.number 0, .op .logicalAnd, .number 1, .op .div, .number 1]
      "0 && 1 / 1".toList := rendered_of_tokens? (by cbv)
  exact ⟨ht, by decide,
    holds?_of_evaluates ht (derives_guardedQuotient 1) (evaluates_guardedQuotient 1)⟩

/-- A quotient by zero does: without it the condition is false, and with it there is no truth
value. -/
theorem holds?_guardedQuotient_zero :
    Rendered [.number 0, .op .logicalAnd, .number 1, .op .div, .number 0] "0 && 1 / 0".toList ∧
      Derives choiceLevel (guardedQuotient 0)
        [.number 0, .op .logicalAnd, .number 1, .op .div, .number 0] ∧
      Evaluates (guardedQuotient 0) 0 [.binary .div (.number 1) (.number 0)] ∧
      holds? "0 && 1 / 0".toList = none := by
  have ht : Rendered [.number 0, .op .logicalAnd, .number 1, .op .div, .number 0]
      "0 && 1 / 0".toList := rendered_of_tokens? (by cbv)
  refine ⟨ht, derives_guardedQuotient 0, evaluates_guardedQuotient 0, ?_⟩
  rw [holds?_of_rendered ht (derives_guardedQuotient 0),
    (evaluates_guardedQuotient 0).value?_eq]
  decide

end PixelWrap.Condition
