import Mathlib
import PixelWrap.Condition.Parser
import PixelWrap.Proofs.Spelling

/-!
# The expressions that conditions are

A condition holds if it is a rendering of an expression whose value is not zero.  The
grammar of expressions is given level by level, with left operands of the same level for
operators between two operands and a right branch of the same level for the conditional
operator.  The ten levels of operators are listed as they are written.  Values are integers;
signed words of 64 bits come in only where a result has to be brought back into their range.

## Main definitions

* `Condition.levels`: the operators between two operands, level by level.
* `Condition.Derives`: tokens spell an expression of a level.
* `Condition.Expr.value?`: the value of an expression as an integer.

## Main results

* `Condition.level_eq_iff`: an operator has the level that it is listed at.
* `Condition.derives_of_parse?`: what is parsed is spelled by the tokens.
* `Condition.Derives.parse?_eq`: what tokens spell is parsed from them.
* `Condition.eval?_map_toInt`: words compute the value.
* `Condition.holds?_eq_some_iff`: **a condition holds if it renders an expression whose
  value is not zero**, and has no truth value if it renders none that has a value.
-/

namespace PixelWrap.Condition

/-! ### The grammar -/

def UnaryOp.token : UnaryOp → Token
  | .not => .bang
  | .neg => .op .sub
  | .complement => .tilde
  | .plus => .op .add

/-- The level of expressions with `?` and `:`, which bind more loosely than all other
operators. -/
def choiceLevel : Nat := BinaryOp.topLevel + 1

/-- The operators between two operands as they are written, those of one level together, from the
tightest level to the loosest. -/
def levels : List (List Text) := [
  ["*".toList, "/".toList, "%".toList],
  ["+".toList, "-".toList],
  ["<<".toList, ">>".toList],
  ["<".toList, ">".toList, "<=".toList, ">=".toList],
  ["==".toList, "!=".toList],
  ["&".toList],
  ["^".toList],
  ["|".toList],
  ["&&".toList],
  ["||".toList]]

/-- **An operator has the level that it is listed at**, counted from one. -/
theorem level_eq_iff {s : Text} {o : BinaryOp} (h : (s, .op o) ∈ spellings) (k : Nat) :
    o.level = k + 1 ↔ s ∈ levels.getD k [] := by
  by_cases hk : k < BinaryOp.topLevel
  · have hall : spellings.all (fun p => p.2 != .op o || (List.range BinaryOp.topLevel).all fun j =>
        decide (o.level = j + 1) == decide (p.1 ∈ levels.getD j [])) = true := by
      cases o <;> decide
    have hop := List.all_eq_true.mp hall _ h
    rw [bne_self_eq_false, Bool.false_or] at hop
    have hlevel := List.all_eq_true.mp hop k (List.mem_range.mpr hk)
    rwa [beq_iff_eq, decide_eq_decide] at hlevel
  · have hle := o.level_le_topLevel
    have hnone : levels.getD k [] = [] := List.getD_eq_default _ _ (Nat.le_of_not_lt hk)
    rw [hnone]
    exact iff_of_false (by omega) List.not_mem_nil

/-- `Derives k e ts`: the tokens `ts` spell the expression `e`, whose operators outside of
parentheses are of level `k` at most.  Operators in front of an operand bind most tightly
and are of level zero. -/
inductive Derives : Nat → Expr → List Token → Prop
  | number (v : Int64) : Derives 0 (.number v) [.number v]
  | name (n : String) : Derives 0 (.name n) [.name n]
  | parens {e : Expr} {ts : List Token} : Derives choiceLevel e ts →
      Derives 0 e (.leftParen :: (ts ++ [.rightParen]))
  | unary {op : UnaryOp} {e : Expr} {ts : List Token} : Derives 0 e ts →
      Derives 0 (.unary op e) (op.token :: ts)
  | tighter {k : Nat} {e : Expr} {ts : List Token} : k < choiceLevel → Derives k e ts →
      Derives (k + 1) e ts
  | binary {k : Nat} {o : BinaryOp} {l r : Expr} {ts us : List Token} : o.level = k + 1 →
      Derives (k + 1) l ts → Derives k r us → Derives (k + 1) (.binary o l r) (ts ++ .op o :: us)
  | choice {c t e : Expr} {ts us vs : List Token} : Derives BinaryOp.topLevel c ts →
      Derives choiceLevel t us → Derives choiceLevel e vs →
      Derives choiceLevel (.choice c t e) (ts ++ .question :: (us ++ .colon :: vs))

/-! ### Parsers without their proofs

The parsers return proofs that fewer tokens are left.  Here the tokens alone are kept, and
there is one equation for each thing that can come first. -/

def readChoice (ts : List Token) : Option (Expr × List Token) :=
  (parseChoice ts).map fun p => (p.1, p.2.val)

def readLevel (k : Nat) (ts : List Token) : Option (Expr × List Token) :=
  (parseLevel k ts).map fun p => (p.1, p.2.val)

def readOperators (k : Nat) (l : Expr) (ts : List Token) : Option (Expr × List Token) :=
  (parseOperators k l ts).map fun p => (p.1, p.2.val)

def readUnary (ts : List Token) : Option (Expr × List Token) :=
  (parseUnary ts).map fun p => (p.1, p.2.val)

/-- Goes on after the condition of a choice, if there is a choice. -/
def readBranches (c : Expr) : List Token → Option (Expr × List Token)
  | .question :: first =>
    (readChoice first).bind fun
      | (t, .colon :: second) => (readChoice second).map fun p => (.choice c t p.1, p.2)
      | _ => none
  | rest => some (c, rest)

section Equations

variable {ts : List Token}

theorem readChoice_eq (ts : List Token) :
    readChoice ts = (readLevel BinaryOp.topLevel ts).bind fun p => readBranches p.1 p.2 := by
  rw [readChoice, readLevel, parseChoice]
  cases parseLevel BinaryOp.topLevel ts with
  | none => rfl
  | some p =>
    obtain ⟨c, rest, hrest⟩ := p
    simp only [Option.map_some, Option.bind_some]
    cases rest with
    | nil => rfl
    | cons k first =>
      by_cases hk : k = .question
      · subst hk
        simp only [after?, if_true, readBranches, readChoice]
        cases parseChoice first with
        | none => rfl
        | some p =>
          obtain ⟨t, middle, hmiddle⟩ := p
          simp only [Option.map_some, Option.bind_some]
          cases middle with
          | nil => rfl
          | cons k second =>
            by_cases hk : k = .colon
            · subst hk
              simp only [if_true]
              cases parseChoice second <;> rfl
            · simp [hk]
      · simp [after?, hk, readBranches]

theorem readLevel_zero (ts : List Token) : readLevel 0 ts = readUnary ts := by
  rw [readLevel, parseLevel, readUnary]

theorem readLevel_succ (k : Nat) (ts : List Token) :
    readLevel (k + 1) ts = (readLevel k ts).bind fun p => readOperators k p.1 p.2 := by
  rw [readLevel, readLevel, parseLevel]
  cases parseLevel k ts with
  | none => rfl
  | some p =>
    obtain ⟨l, rest, hl⟩ := p
    simp only [Option.map_some, Option.bind_some, readOperators, Option.map_map]
    rfl

/-- Operators of the level are read on. -/
theorem readOperators_op {k : Nat} {o : BinaryOp} (l : Expr) (ts : List Token)
    (ho : o.level = k + 1) : readOperators k l (.op o :: ts) =
      (readLevel k ts).bind fun p => readOperators k (.binary o l p.1) p.2 := by
  rw [readOperators, parseOperators, readLevel]
  simp only [operator?, ho, if_true]
  cases parseLevel k ts with
  | none => rfl
  | some p =>
    obtain ⟨r, rest, hr⟩ := p
    simp only [Option.map_some, Option.bind_some, readOperators, Option.map_map]
    rfl

/-- Nothing else is. -/
theorem readOperators_of_ne {k : Nat} (l : Expr) {ts : List Token}
    (h : ∀ o r, ts = .op o :: r → o.level ≠ k + 1) : readOperators k l ts = some (l, ts) := by
  have hop : operator? (k + 1) ts = none := by
    unfold operator?
    split
    · next o r => exact if_neg (h o r rfl)
    · rfl
  rw [readOperators, parseOperators, hop]
  rfl

theorem readUnary_nil : readUnary [] = none := by
  rw [readUnary, parseUnary]
  rfl

theorem readUnary_unary {k : Token} {op : UnaryOp} (h : k.unaryOp? = some op) (ts : List Token) :
    readUnary (k :: ts) = (readUnary ts).map fun p => (.unary op p.1, p.2) := by
  rw [readUnary, parseUnary, readUnary, h]
  simp only [Option.map_map]
  rfl

theorem readUnary_operand {k : Token} {e : Expr} (h : k.operand? = some e) (ts : List Token) :
    readUnary (k :: ts) = some (e, ts) := by
  have hu : k.unaryOp? = none := by
    unfold Token.operand? at h
    split at h <;> cases h <;> rfl
  rw [readUnary, parseUnary, hu, h]
  rfl

theorem readUnary_paren (ts : List Token) :
    readUnary (.leftParen :: ts) = (readChoice ts).bind fun
      | (e, .rightParen :: r) => some (e, r)
      | _ => none := by
  rw [readUnary, parseUnary, readChoice]
  simp only [Token.unaryOp?, Token.operand?, if_true]
  cases parseChoice ts with
  | none => rfl
  | some p =>
    obtain ⟨e, rest, hrest⟩ := p
    simp only [Option.map_some, Option.bind_some]
    cases rest with
    | nil => rfl
    | cons k rest =>
      by_cases hk : k = .rightParen
      · subst hk
        simp [after?]
      · simp [after?, hk]

theorem readUnary_other {k : Token} (hu : k.unaryOp? = none) (ho : k.operand? = none)
    (hk : k ≠ .leftParen) (ts : List Token) : readUnary (k :: ts) = none := by
  rw [readUnary, parseUnary, hu, ho]
  simp [hk]

theorem length_lt_of_readLevel {k : Nat} {e : Expr} {rest : List Token}
    (h : readLevel k ts = some (e, rest)) : rest.length < ts.length := by
  obtain ⟨⟨e', r⟩, -, heq⟩ := Option.map_eq_some_iff.mp h
  cases heq
  exact r.property

theorem length_lt_of_readChoice {e : Expr} {rest : List Token}
    (h : readChoice ts = some (e, rest)) : rest.length < ts.length := by
  obtain ⟨⟨e', r⟩, -, heq⟩ := Option.map_eq_some_iff.mp h
  cases heq
  exact r.property

end Equations

/-! ### What is parsed is spelled -/

section Soundness

variable {ts rest : List Token} {e : Expr}

/-- The tokens start with a spelling of the expression, and `rest` follows it. -/
def Reads (k : Nat) (e : Expr) (ts rest : List Token) : Prop :=
  ∃ us, ts = us ++ rest ∧ Derives k e us

theorem token_of_unaryOp? {k : Token} {op : UnaryOp} (h : k.unaryOp? = some op) :
    k = op.token := by
  unfold Token.unaryOp? at h
  split at h <;> cases h <;> rfl

theorem derives_of_operand? {k : Token} (h : k.operand? = some e) : Derives 0 e [k] := by
  unfold Token.operand? at h
  split at h <;> cases h
  · exact .number _
  · exact .name _

/-- What is read from fewer than `n` tokens is spelled by them. -/
def SoundBelow (n : Nat) : Prop :=
  ∀ ts e rest, ts.length < n → readChoice ts = some (e, rest) → Reads choiceLevel e ts rest

theorem reads_of_readUnary {n : Nat} (hn : SoundBelow n) (hts : ts.length ≤ n)
    (h : readUnary ts = some (e, rest)) : Reads 0 e ts rest := by
  induction ts generalizing e with
  | nil =>
    rw [readUnary_nil] at h
    cases h
  | cons k ts ih =>
    cases hu : k.unaryOp? with
    | some op =>
      rw [readUnary_unary hu] at h
      obtain ⟨⟨e', r⟩, he, heq⟩ := Option.map_eq_some_iff.mp h
      cases heq
      obtain ⟨us, rfl, hus⟩ := ih (Nat.le_of_succ_le hts) he
      rw [token_of_unaryOp? hu]
      exact ⟨op.token :: us, rfl, .unary hus⟩
    | none =>
      cases ho : k.operand? with
      | some e' =>
        rw [readUnary_operand ho] at h
        cases h
        exact ⟨[k], rfl, derives_of_operand? ho⟩
      | none =>
        by_cases hk : k = .leftParen
        · subst hk
          rw [readUnary_paren] at h
          obtain ⟨⟨e', r⟩, he, hclose⟩ := Option.bind_eq_some_iff.mp h
          obtain ⟨us, rfl, hus⟩ := hn ts e' r hts he
          split at hclose
          · next heq =>
            cases heq
            cases hclose
            exact ⟨_, by simp, .parens hus⟩
          · cases hclose
        · rw [readUnary_other hu ho hk] at h
          cases h

theorem reads_of_readLevel {n k : Nat} (hn : SoundBelow n) (hk : k ≤ BinaryOp.topLevel)
    (hts : ts.length ≤ n) (h : readLevel k ts = some (e, rest)) : Reads k e ts rest := by
  induction k generalizing ts e rest with
  | zero =>
    rw [readLevel_zero] at h
    exact reads_of_readUnary hn hts h
  | succ k ih =>
    -- The operators that follow, one after the other, with the operand on their left.
    have operators : ∀ m, ∀ l us vs e rest, vs.length < m → vs.length ≤ n →
        Derives (k + 1) l us → readOperators k l vs = some (e, rest) →
        ∃ ws, vs = ws ++ rest ∧ Derives (k + 1) e (us ++ ws) := by
      intro m
      induction m with
      | zero => exact fun _ _ _ _ _ hm => absurd hm (Nat.not_lt_zero _)
      | succ m ihm =>
        intro l us vs e rest hm hvs hl h
        by_cases hop : ∃ o r, vs = .op o :: r ∧ o.level = k + 1
        · obtain ⟨o, r, rfl, ho⟩ := hop
          rw [readOperators_op l r ho] at h
          obtain ⟨⟨e', r'⟩, hr, hmore⟩ := Option.bind_eq_some_iff.mp h
          have hlt := length_lt_of_readLevel hr
          simp only [List.length_cons] at hm hvs
          obtain ⟨xs, rfl, hxs⟩ := ih (Nat.le_of_succ_le hk) (by omega) hr
          obtain ⟨ws, rfl, hws⟩ :=
            ihm _ _ r' e rest (by omega) (by omega) (.binary ho hl hxs) hmore
          exact ⟨.op o :: (xs ++ ws), by simp, by simpa using hws⟩
        · rw [readOperators_of_ne l fun o r hr ho => hop ⟨o, r, hr, ho⟩] at h
          cases h
          exact ⟨[], rfl, by simpa using hl⟩
    rw [readLevel_succ] at h
    obtain ⟨⟨l, r⟩, hl, hmore⟩ := Option.bind_eq_some_iff.mp h
    have hlt := length_lt_of_readLevel hl
    obtain ⟨us, rfl, hus⟩ := ih (Nat.le_of_succ_le hk) hts hl
    have hleft : Derives (k + 1) l us := .tighter (Nat.lt_succ_of_le (Nat.le_of_succ_le hk)) hus
    obtain ⟨ws, rfl, hws⟩ := operators _ l us r e rest (Nat.lt_succ_self _) (by omega) hleft hmore
    exact ⟨us ++ ws, by simp, hws⟩

theorem soundBelow (n : Nat) : SoundBelow n := by
  induction n with
  | zero => exact fun _ _ _ h => absurd h (Nat.not_lt_zero _)
  | succ n ih =>
    intro ts e rest hts h
    rw [readChoice_eq] at h
    obtain ⟨⟨c, r⟩, hc, hbranches⟩ := Option.bind_eq_some_iff.mp h
    have hlt := length_lt_of_readLevel hc
    obtain ⟨us, rfl, hus⟩ := reads_of_readLevel ih le_rfl (Nat.le_of_lt_succ hts) hc
    unfold readBranches at hbranches
    split at hbranches
    · next first hr =>
      obtain rfl : r = .question :: first := hr
      obtain ⟨⟨t, middle⟩, ht, hmore⟩ := Option.bind_eq_some_iff.mp hbranches
      have hlt' := length_lt_of_readChoice ht
      simp only [List.length_append, List.length_cons] at hts hlt
      obtain ⟨vs, rfl, hvs⟩ := ih first t middle (by omega) ht
      split at hmore
      · next t' second heq =>
        cases heq
        obtain ⟨⟨e', r'⟩, he, heq⟩ := Option.map_eq_some_iff.mp hmore
        cases heq
        simp only [List.length_append, List.length_cons] at hts hlt'
        obtain ⟨ws, rfl, hws⟩ := ih second e' r' (by omega) he
        exact ⟨_, by simp, .choice hus hvs hws⟩
      · cases hmore
    · cases hbranches
      exact ⟨us, rfl, .tighter (Nat.lt_succ_self _) hus⟩

/-- **What is parsed is spelled by the tokens.** -/
theorem derives_of_parse? (h : parse? ts = some e) : Derives choiceLevel e ts := by
  unfold parse? at h
  split at h
  · next e' hr heq =>
    cases h
    have hread : readChoice ts = some (e, []) := by
      rw [readChoice, heq]
      rfl
    obtain ⟨us, rfl, hus⟩ := soundBelow _ ts e [] (Nat.lt_succ_self _) hread
    simpa using hus
  · cases h

end Soundness

/-! ### What is spelled is parsed -/

section Completeness

/-- No operator of level `k` or tighter comes first. -/
def Stops (k : Nat) (rest : List Token) : Prop := ∀ o r, rest = .op o :: r → k < o.level

theorem Stops.of_ne {k : Nat} {t : Token} {r : List Token} (h : ∀ o, t ≠ .op o) :
    Stops k (t :: r) := by
  intro o r' heq
  exact absurd (List.cons.inj heq).1 (h o)

/-- The tokens of an expression are read as the expression.  At the levels of operators
between two operands, reading goes on after it with the operators of that level. -/
def Parses : Nat → Expr → List Token → Prop
  | 0, e, ts => ∀ rest, readUnary (ts ++ rest) = some (e, rest)
  | k + 1, e, ts =>
    if k < BinaryOp.topLevel then
      ∀ rest, Stops k rest → readLevel (k + 1) (ts ++ rest) = readOperators k e rest
    else
      ∀ rest, Stops BinaryOp.topLevel rest → rest.head? ≠ some .question →
        readChoice (ts ++ rest) = some (e, rest)

theorem Parses.readLevel {k : Nat} {e : Expr} {ts r : List Token} (h : Parses k e ts)
    (hk : k ≤ BinaryOp.topLevel) (hrest : Stops k r) :
    readLevel k (ts ++ r) = some (e, r) := by
  cases k with
  | zero => rw [readLevel_zero, h r]
  | succ k =>
    rw [Parses, if_pos (Nat.lt_of_succ_le hk)] at h
    have hbelow : Stops k r := fun o r hr => Nat.lt_of_succ_lt (hrest o r hr)
    rw [h r hbelow]
    exact readOperators_of_ne e fun o r hr => (hrest o r hr).ne'

theorem Parses.readChoice {e : Expr} {ts r : List Token} (h : Parses choiceLevel e ts)
    (hrest : Stops BinaryOp.topLevel r) (hq : r.head? ≠ some .question) :
    readChoice (ts ++ r) = some (e, r) :=
  h r hrest hq

theorem unaryOp?_token (op : UnaryOp) : op.token.unaryOp? = some op := by
  cases op <;> rfl

theorem readBranches_of_ne {e : Expr} {rest : List Token} (hq : rest.head? ≠ some .question) :
    readBranches e rest = some (e, rest) := by
  unfold readBranches
  split
  · exact absurd rfl hq
  · rfl

theorem Derives.parses {k : Nat} {e : Expr} {ts : List Token} (h : Derives k e ts) :
    Parses k e ts := by
  induction h with
  | number v => exact fun rest => readUnary_operand rfl rest
  | name n => exact fun rest => readUnary_operand rfl rest
  | @parens e ts _ ih =>
    intro rest
    have hread := ih.readChoice (r := .rightParen :: rest) (.of_ne nofun) nofun
    rw [List.cons_append, List.append_assoc, readUnary_paren]
    simp only [List.singleton_append, hread, Option.bind_some]
  | @unary op e ts _ ih =>
    intro rest
    rw [List.cons_append, readUnary_unary (unaryOp?_token op), ih rest]
    rfl
  | @tighter k e ts hk _ ih =>
    rcases Nat.lt_or_eq_of_le (Nat.le_of_lt_succ hk) with hk | rfl
    · rw [Parses, if_pos hk]
      intro rest hrest
      rw [readLevel_succ, ih.readLevel hk.le hrest, Option.bind_some]
    · intro rest hrest hq
      rw [readChoice_eq, ih.readLevel le_rfl hrest, Option.bind_some]
      exact readBranches_of_ne hq
  | @binary k o l r ts us ho _ _ ihl ihr =>
    have hk : k < BinaryOp.topLevel := by
      have := o.level_le_topLevel
      omega
    rw [Parses, if_pos hk] at ihl ⊢
    intro rest hrest
    -- The operator is of the level itself, so the left operand is read up to it, and its
    -- right operand is read before the next one.
    have hop : Stops k (.op o :: (us ++ rest)) := by
      rintro o' r' ⟨⟩
      omega
    rw [List.append_assoc, List.cons_append, ihl _ hop, readOperators_op l _ ho,
      ihr.readLevel hk.le hrest, Option.bind_some]
  | @choice c t e ts us vs _ _ _ ihc iht ihe =>
    intro rest hrest hq
    have hc := ihc.readLevel (r := .question :: (us ++ .colon :: vs ++ rest)) le_rfl
      (.of_ne nofun)
    have ht := iht.readChoice (r := .colon :: (vs ++ rest)) (.of_ne nofun) nofun
    have hassoc : ts ++ .question :: (us ++ .colon :: vs) ++ rest =
        ts ++ .question :: (us ++ .colon :: vs ++ rest) := by simp
    have hassoc' : us ++ .colon :: vs ++ rest = us ++ .colon :: (vs ++ rest) := by simp
    rw [hassoc, readChoice_eq, hc, Option.bind_some, readBranches, hassoc', ht, Option.bind_some]
    simp only [ihe.readChoice hrest hq, Option.map_some]

/-- **What tokens spell is parsed from them.** -/
theorem Derives.parse?_eq {e : Expr} {ts : List Token} (h : Derives choiceLevel e ts) :
    parse? ts = some e := by
  have hread := h.parses.readChoice (r := []) nofun nofun
  rw [List.append_nil, Condition.readChoice] at hread
  obtain ⟨⟨e', r⟩, hp, heq⟩ := Option.map_eq_some_iff.mp hread
  cases r with
  | mk r hr =>
    cases heq
    rw [parse?, hp]

/-! ### The tokens of an expression are apart -/

/-- The tokens are apart, start like an operand and end like one. -/
structure LikeOperand (ts : List Token) : Prop where
  chain : ts.IsChain fun a b => a.apart b = true
  first : ∃ a, ts.head? = some a ∧ a.startsOperand = true
  last : ∃ z, ts.getLast? = some z ∧ z.endsOperand = true

theorem LikeOperand.append {ts us : List Token} {k : Token} (hts : LikeOperand ts)
    (hus : LikeOperand us) (hword : k.isWord = false) (hend : k.endsOperand = false) :
    LikeOperand (ts ++ k :: us) := by
  obtain ⟨a, ha, hstart⟩ := hts.first
  obtain ⟨y, hy, hyend⟩ := hts.last
  obtain ⟨b, hb, hbstart⟩ := hus.first
  obtain ⟨z, hz, hzend⟩ := hus.last
  refine ⟨?_, ⟨a, by simp [ha], hstart⟩, ⟨z, by simp [List.getLast?_cons, hz], hzend⟩⟩
  rw [List.isChain_append]
  refine ⟨hts.chain, ?_, ?_⟩
  · rw [List.isChain_cons]
    refine ⟨?_, hus.chain⟩
    rw [hb]
    rintro _ ⟨⟩
    simp [Token.apart, hend, hbstart]
  · rw [hy]
    rintro _ ⟨⟩ _ ⟨⟩
    simp [Token.apart, hyend, hword]

theorem Derives.likeOperand {k : Nat} {e : Expr} {ts : List Token} (h : Derives k e ts) :
    LikeOperand ts := by
  induction h with
  | number v => exact ⟨.singleton _, ⟨_, rfl, rfl⟩, ⟨_, rfl, rfl⟩⟩
  | name n => exact ⟨.singleton _, ⟨_, rfl, rfl⟩, ⟨_, rfl, rfl⟩⟩
  | @parens e ts _ ih =>
    obtain ⟨a, ha, hstart⟩ := ih.first
    obtain ⟨z, hz, hend⟩ := ih.last
    have hlast : (Token.leftParen :: (ts ++ [.rightParen])).getLast? = some .rightParen := by
      rw [← List.cons_append]
      exact List.getLast?_concat
    refine ⟨?_, ⟨.leftParen, rfl, rfl⟩, ⟨.rightParen, hlast, rfl⟩⟩
    rw [List.isChain_cons, List.isChain_append]
    refine ⟨?_, ih.chain, .singleton _, ?_⟩
    · intro b hb
      rw [List.head?_append, ha] at hb
      cases hb
      exact hstart
    · rw [hz]
      rintro _ ⟨⟩ _ ⟨⟩
      simp [Token.apart, hend, Token.isWord]
  | @unary op e ts _ ih =>
    obtain ⟨a, ha, hstart⟩ := ih.first
    obtain ⟨z, hz, hend⟩ := ih.last
    have hlast : (op.token :: ts).getLast? = some z := by
      rw [List.getLast?_cons, hz]
      rfl
    refine ⟨?_, ⟨op.token, rfl, by cases op <;> rfl⟩, ⟨z, hlast, hend⟩⟩
    rw [List.isChain_cons, ha]
    refine ⟨?_, ih.chain⟩
    rintro _ ⟨⟩
    cases op <;> exact hstart
  | tighter _ _ ih => exact ih
  | binary _ _ _ ihl ihr => exact ihl.append ihr rfl rfl
  | choice _ _ _ ihc iht ihe => exact ihc.append (iht.append ihe rfl rfl) rfl rfl

end Completeness

/-! ### Values -/

/-- The integer in the range of a word that differs from `x` by a multiple of the number of
words. -/
def wrap (x : Int) : Int := x.bmod (2 ^ 64)

/-- The bits of an integer. -/
def bits (x : Int) : BitVec 64 := BitVec.ofInt 64 x

/-- The least integer that fits into a word. -/
def leastWord : Int := -2 ^ 63

def UnaryOp.value : UnaryOp → Int → Int
  | .not, v => if v = 0 then 1 else 0
  | .neg, v => wrap (-v)
  | .complement, v => -v - 1
  | .plus, v => v

/-- The value of an operator between two integers.  There is none for a quotient by zero
or beyond the range of words, and for a shift by an amount that is not in `0..63`. -/
def BinaryOp.value? : BinaryOp → Int → Int → Option Int
  | .logicalOr, l, r => some (if l ≠ 0 ∨ r ≠ 0 then 1 else 0)
  | .logicalAnd, l, r => some (if l ≠ 0 ∧ r ≠ 0 then 1 else 0)
  | .bitOr, l, r => some (bits l ||| bits r).toInt
  | .bitXor, l, r => some (bits l ^^^ bits r).toInt
  | .bitAnd, l, r => some (bits l &&& bits r).toInt
  | .equal, l, r => some (if l = r then 1 else 0)
  | .notEqual, l, r => some (if l ≠ r then 1 else 0)
  | .less, l, r => some (if l < r then 1 else 0)
  | .greater, l, r => some (if l > r then 1 else 0)
  | .lessEqual, l, r => some (if l ≤ r then 1 else 0)
  | .greaterEqual, l, r => some (if l ≥ r then 1 else 0)
  | .shiftLeft, l, r => if 0 ≤ r ∧ r < 64 then some (wrap (l * 2 ^ r.toNat)) else none
  | .shiftRight, l, r => if 0 ≤ r ∧ r < 64 then some (l / 2 ^ r.toNat) else none
  | .add, l, r => some (wrap (l + r))
  | .sub, l, r => some (wrap (l - r))
  | .mul, l, r => some (wrap (l * r))
  | .div, l, r => if r = 0 ∨ l = leastWord ∧ r = -1 then none else some (l.tdiv r)
  | .rem, l, r => if r = 0 ∨ l = leastWord ∧ r = -1 then none else some (l.tmod r)

/-- The value of an expression as an integer.  Each part must have a value, also the branch
of a choice that is not taken. -/
def Expr.value? : Expr → Option Int
  | .number v => some v.toInt
  | .name _ => some 0
  | .unary op e => e.value?.map op.value
  | .binary op l r => l.value?.bind fun x => r.value?.bind fun y => op.value? x y
  | .choice c t e =>
    c.value?.bind fun x => t.value?.bind fun y => e.value?.map fun z => if x ≠ 0 then y else z

section Values

variable {l r : Int64}

theorem toInt_eq_zero_iff : r.toInt = 0 ↔ r = 0 := by
  rw [← Int64.toInt_zero, Int64.toInt_inj]

theorem toInt_truth (b : Bool) : (truth b).toInt = if b then 1 else 0 := by
  cases b <;> rfl

theorem bits_toInt : bits r.toInt = r.toBitVec := by
  rw [bits, ← Int64.toInt_toBitVec, BitVec.ofInt_toInt]

theorem divides_iff :
    divides l r = true ↔ ¬(r.toInt = 0 ∨ l.toInt = leastWord ∧ r.toInt = -1) := by
  have hl : l.toInt = leastWord ↔ l = Int64.minValue := by
    rw [← Int64.toInt_inj]
    rfl
  have hr : r.toInt = -1 ↔ r = -1 := by
    rw [← Int64.toInt_inj]
    rfl
  rw [toInt_eq_zero_iff, hl, hr]
  simp only [divides, Bool.and_eq_true, Bool.not_eq_true', Bool.and_eq_false_iff, bne_iff_ne,
    beq_eq_false_iff_ne]
  tauto

theorem shifts_iff : shifts r = true ↔ 0 ≤ r.toInt ∧ r.toInt < 64 := by
  simp [shifts, Int64.le_iff_toInt_le, Int64.lt_iff_toInt_lt]

/-- The amount of a shift is what its word says, if that is in range. -/
theorem toNat_smod (h : 0 ≤ r.toInt ∧ r.toInt < 64) :
    (r.toBitVec.smod 64).toNat = r.toInt.toNat := by
  have hmod : (r.toBitVec.smod 64).toInt = r.toInt := by
    have h64 : (64 : BitVec 64).toInt = 64 := by decide
    rw [BitVec.toInt_smod, h64, Int64.toInt_toBitVec, Int.fmod_eq_emod_of_nonneg _ (by omega)]
    exact Int.emod_eq_of_lt h.1 h.2
  have hcond := BitVec.toInt_eq_toNat_cond (r.toBitVec.smod 64)
  have hlt := (r.toBitVec.smod 64).isLt
  rw [hmod] at hcond
  split at hcond <;> omega

theorem toInt_shiftLeft (h : 0 ≤ r.toInt ∧ r.toInt < 64) :
    (l <<< r).toInt = wrap (l.toInt * 2 ^ r.toInt.toNat) := by
  have hl : l.toInt = (l.toBitVec.toNat : Int).bmod (2 ^ 64) := by
    rw [← Int64.toInt_toBitVec, BitVec.toInt_eq_toNat_bmod]
  rw [← Int64.toInt_toBitVec, Int64.toBitVec_shiftLeft, BitVec.shiftLeft_eq', toNat_smod h,
    BitVec.toInt_shiftLeft, Nat.shiftLeft_eq, wrap, hl, Int.bmod_mul_bmod]
  push_cast
  rfl

theorem toInt_shiftRight (h : 0 ≤ r.toInt ∧ r.toInt < 64) :
    (l >>> r).toInt = l.toInt / 2 ^ r.toInt.toNat := by
  rw [← Int64.toInt_toBitVec, Int64.toBitVec_shiftRight, BitVec.sshiftRight_eq', toNat_smod h,
    BitVec.toInt_sshiftRight, Int.shiftRight_eq_div_pow, Int64.toInt_toBitVec]
  push_cast
  rfl

theorem toInt_div (h : divides l r = true) : (l / r).toInt = l.toInt.tdiv r.toInt := by
  by_cases hl : l = Int64.minValue
  · refine Int64.toInt_div_of_ne_right l r ?_
    rintro rfl
    subst hl
    exact absurd h (by decide)
  · exact Int64.toInt_div_of_ne_left l r hl

theorem UnaryOp.toInt_apply (op : UnaryOp) (v : Int64) :
    (op.apply v).toInt = op.value v.toInt := by
  cases op with
  | not => simp [UnaryOp.apply, UnaryOp.value, toInt_truth, toInt_eq_zero_iff]
  | neg => exact Int64.toInt_neg v
  | complement =>
    have hlow := v.le_toInt
    have hhigh := v.toInt_lt
    rw [UnaryOp.apply, UnaryOp.value, Int64.toInt_not]
    exact Int.bmod_eq_of_le (by omega) (by omega)
  | plus => rfl

theorem BinaryOp.apply?_map_toInt (op : BinaryOp) (l r : Int64) :
    ( op.apply? l r).map Int64.toInt = op.value? l.toInt r.toInt := by
  cases op with
  | add => exact congrArg some (Int64.toInt_add l r)
  | sub => exact congrArg some (Int64.toInt_sub l r)
  | mul => exact congrArg some (Int64.toInt_mul l r)
  | bitOr | bitXor | bitAnd =>
    rw [ BinaryOp.apply?, BinaryOp.value?, bits_toInt, bits_toInt, Option.map_some]
    rfl
  | shiftLeft =>
    by_cases h : shifts r = true
    · simp [ BinaryOp.apply?, BinaryOp.value?, h, shifts_iff.mp h,
        toInt_shiftLeft (shifts_iff.mp h)]
    · simp [ BinaryOp.apply?, BinaryOp.value?, h, mt shifts_iff.mpr h]
  | shiftRight =>
    by_cases h : shifts r = true
    · simp [ BinaryOp.apply?, BinaryOp.value?, h, shifts_iff.mp h,
        toInt_shiftRight (shifts_iff.mp h)]
    · simp [ BinaryOp.apply?, BinaryOp.value?, h, mt shifts_iff.mpr h]
  | div =>
    by_cases h : divides l r = true
    · rw [ BinaryOp.apply?, BinaryOp.value?, if_pos h, if_neg (divides_iff.mp h), Option.map_some,
        toInt_div h]
    · rw [ BinaryOp.apply?, BinaryOp.value?, if_neg h, if_pos (not_not.mp (mt divides_iff.mpr h))]
      rfl
  | rem =>
    by_cases h : divides l r = true
    · rw [ BinaryOp.apply?, BinaryOp.value?, if_pos h, if_neg (divides_iff.mp h), Option.map_some,
        Int64.toInt_mod]
    · rw [ BinaryOp.apply?, BinaryOp.value?, if_neg h, if_pos (not_not.mp (mt divides_iff.mpr h))]
      rfl
  | equal | notEqual =>
    simp [ BinaryOp.apply?, BinaryOp.value?, toInt_truth, Int64.toInt_inj]
  | less | greater =>
    simp [ BinaryOp.apply?, BinaryOp.value?, toInt_truth, Int64.lt_iff_toInt_lt]
  | lessEqual | greaterEqual =>
    simp [ BinaryOp.apply?, BinaryOp.value?, toInt_truth, Int64.le_iff_toInt_le]
  | logicalOr | logicalAnd =>
    simp [ BinaryOp.apply?, BinaryOp.value?, toInt_truth, toInt_eq_zero_iff]

/-- **Words compute the value.** -/
theorem eval?_map_toInt (e : Expr) : e.eval?.map Int64.toInt = e.value? := by
  induction e with
  | number v => rfl
  | name n => rfl
  | unary op e ih =>
    rw [Expr.eval?, Expr.value?, ← ih]
    cases e.eval? with
    | none => rfl
    | some v => exact congrArg some (op.toInt_apply v)
  | binary op l r ihl ihr =>
    rw [Expr.eval?, Expr.value?, ← ihl, ← ihr]
    cases l.eval? with
    | none => rfl
    | some x =>
      cases r.eval? with
      | none => rfl
      | some y => exact op.apply?_map_toInt x y
  | choice c t e ihc iht ihe =>
    rw [Expr.eval?, Expr.value?, ← ihc, ← iht, ← ihe]
    cases c.eval? with
    | none => rfl
    | some x =>
      cases t.eval? with
      | none => rfl
      | some y =>
        cases e.eval? with
        | none => rfl
        | some z =>
          by_cases hx : x = 0
          · simp [hx]
          · simp [hx, toInt_eq_zero_iff]

end Values

/-! ### Conditions -/

/-- **A condition has the truth value `b` if and only if its text is a rendering of an
expression**, with blanks anywhere between the tokens, **that has a value which is other
than zero just if `b` is true.** -/
theorem holds?_eq_some_iff (t : Text) (b : Bool) :
    holds? t = some b ↔ ∃ e ts v, Rendered ts t ∧ Derives choiceLevel e ts ∧
      e.value? = some v ∧ b = decide (v ≠ 0) := by
  constructor
  · intro h
    obtain ⟨ts, hts, h⟩ := Option.bind_eq_some_iff.mp h
    obtain ⟨e, he, h⟩ := Option.bind_eq_some_iff.mp h
    obtain ⟨w, hw, h⟩ := Option.bind_eq_some_iff.mp h
    cases h
    refine ⟨e, ts, w.toInt, rendered_of_tokens? hts, derives_of_parse? he, ?_, ?_⟩
    · rw [← eval?_map_toInt, hw]
      rfl
    · rw [Bool.eq_iff_iff]
      simp [toInt_eq_zero_iff]
  · rintro ⟨e, ts, v, hts, he, hv, rfl⟩
    rw [← eval?_map_toInt] at hv
    obtain ⟨w, hw, rfl⟩ := Option.map_eq_some_iff.mp hv
    rw [holds?, tokens?_of_rendered hts he.likeOperand.chain]
    simp only [Option.bind_eq_bind, Option.bind_some, he.parse?_eq, hw]
    refine congrArg some ?_
    rw [Bool.eq_iff_iff]
    simp [toInt_eq_zero_iff]

end PixelWrap.Condition
