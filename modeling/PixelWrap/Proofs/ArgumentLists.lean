import PixelWrap.Proofs.Substitution

/-!
# Lists of arguments

The reader of arguments walks over the text behind an opening parenthesis with a counter of
the parentheses that are open.  What it finds is described here by the text alone: a mark
stands at an offset, outside of literals, and in front of it so many more parentheses open than
close.  The parenthesis that closes a list is the first one with a single open parenthesis in
front of it, and the commas that cut the list are those with a single one as well.

In between, the counter counts from the start of the current argument.  So each fact on the
reader is one on a text in which some parentheses are open already, by induction on the way the
reader takes.

A macro looks its arguments up by numbers.  That no number is too large depends on three places
that do not see each other: the numbers come from the places of names among the parameters, the
arguments are counted when they are handed over, and the lookup comes last.

## Main definitions

* `Quoted.Apart`: a text does not end in a literal.
* `Quoted.outer`, `Quoted.level`: the text outside of literals, and the parentheses open in it.
* `Text.MarkAt`: a mark stands outside of literals with so many parentheses open.
* `Macro.Balanced`, `Macro.commas`, `Macro.IsArgumentList`: what a list of arguments is.
* `Macro.Collects`: the way of the reader.
* `Macro.render?`: puts arguments into a replacement text, and fails if one is missing.

## Main results

* `Quoted.Apart.inside_append`: behind a text that does not end in a literal, literals are
  where they are without it.
* `Macro.collect?_eq_some_iff`: what the reader finds is the list of arguments.
* `Macro.render?_eq_render`: no argument is missing.
* `Macro.arguments_exact`: **lists of arguments are read as they stand, and each argument that a
  macro puts in is there.**
-/

namespace PixelWrap

open Text (size)

namespace Text

/-- A text in front of the first piece stands in front of all of them. -/
theorem join_append_cons (sep s p : Text) (ps : List Text) :
    join sep ((s ++ p) :: ps) = s ++ join sep (p :: ps) := by
  cases ps with
  | nil => rfl
  | cons q ps => simp only [join_cons_cons, List.append_assoc]

end Text

namespace Quoted

/-! ### Texts that do not end in a literal -/

/-- Each literal that starts in `s` ends in it, if `v` is what follows. -/
inductive Apart : Text → Text → Prop
  | nil (v : Text) : Apart [] v
  | literal {r s v : Text} : (split r).2 = s ++ v → Apart s v →
      Apart ('"' :: (split r).1 ++ s) v
  | mark {c : Char} {s v : Text} : c ≠ '"' → Apart s v → Apart (c :: s) v

section Apart

variable {c : Char} {n : Nat} {r s t v w : Text}

/-- A literal, and the text behind it. -/
theorem literal_append (r : Text) : '"' :: (split r).1 ++ (split r).2 = '"' :: r := by
  rw [List.cons_append, split_append]

theorem inside_cons (hc : c ≠ '"') : inside (c :: v) (c.utf8Size + n) = inside v n := by
  have h := inside_append_of_ne (s := [c]) (v := v) (n := n) (by simpa using hc)
  rwa [Text.size_cons, Text.size_nil, Nat.add_zero, List.singleton_append] at h

/-- Behind a text that does not end in a literal, literals are where they are without it. -/
theorem Apart.inside_append (h : Apart s v) (n : Nat) :
    inside (s ++ v) (size s + n) = inside v n := by
  induction h with
  | nil => rw [List.nil_append, Text.size_nil, Nat.zero_add]
  | @literal r s v hsplit _ ih =>
    have hv : s ++ v <+: (split r).2 := by rw [hsplit]
    rw [List.append_assoc, Text.size_append, Nat.add_assoc, inside_literal hv,
      decide_eq_false (by omega), Bool.false_or, Nat.add_sub_cancel_left, ih]
  | mark hc _ ih => rw [List.cons_append, Text.size_cons, Nat.add_assoc, inside_cons hc, ih]

/-- A text does not end in a literal if what follows does not stand in one. -/
theorem apart_of_inside (h : inside (s ++ v) (size s) = false) : Apart s v := by
  induction hn : s.length using Nat.strongRecOn generalizing s with
  | ind n ih =>
    subst hn
    cases s with
    | nil => exact .nil v
    | cons c s =>
      by_cases hc : c = '"'
      · subst hc
        rw [List.cons_append, inside, if_pos (beq_self_eq_true _), Bool.or_eq_false_iff,
          decide_eq_false_iff_not] at h
        obtain ⟨hlt, h⟩ := h
        -- The literal ends in the text, because that has as many bytes.
        obtain ⟨u, hs, hsplit⟩ :=
          Text.exists_of_append_eq (literal_append (s ++ v)) (Nat.le_of_not_lt hlt)
        rw [hs] at hlt h ⊢
        rw [hsplit, Text.size_append, Nat.add_sub_cancel_left] at h
        refine .literal hsplit (ih _ ?_ h rfl)
        rw [hs, List.length_append, List.length_cons]
        omega
      · have hcons := inside_cons (v := s ++ v) (n := size s) hc
        rw [List.cons_append, Text.size_cons, hcons] at h
        exact .mark hc (ih _ (Nat.lt_succ_self _) h rfl)

theorem Apart.append (h : Apart s (t ++ v)) (h' : Apart t v) : Apart (s ++ t) v := by
  generalize hw : t ++ v = w at h
  induction h with
  | nil => exact h'
  | literal hsplit _ ih =>
    subst hw
    rw [List.append_assoc]
    exact .literal (by rw [hsplit, List.append_assoc]) (ih rfl)
  | mark hc _ ih => exact .mark hc (ih hw)

end Apart

/-! ### Open parentheses -/

/-- The text without its literals. -/
def outer : Text → Text
  | [] => []
  | c :: r => if c == '"' then outer (split r).2 else c :: outer r
termination_by t => t.length
decreasing_by
  · exact Nat.lt_succ_of_le (split_snd_suffix r).length_le
  · exact Nat.lt_succ_self _

/-- The number of opening parentheses in a text less that of closing ones. -/
def level (t : Text) : Int := t.count '(' - t.count ')'

section Level

variable {c : Char} {r t v : Text}

@[simp] theorem outer_nil : outer [] = [] := by rw [outer]

theorem outer_literal (h : v <+: (split r).2) :
    outer ('"' :: (split r).1 ++ v) = outer v := by
  rw [List.cons_append, outer, if_pos (beq_self_eq_true _), split_of_isPrefix h]

theorem outer_cons (hc : c ≠ '"') : outer (c :: v) = c :: outer v := by
  rw [outer, if_neg (by simpa using hc)]

@[simp] theorem level_nil : level [] = 0 := rfl

theorem level_cons (c : Char) (t : Text) : level (c :: t) = level [c] + level t := by
  simp only [level, List.count_cons, List.count_nil]
  omega

@[simp] theorem level_opening : level ['('] = 1 := rfl

@[simp] theorem level_closing : level [')'] = -1 := rfl

theorem level_other (ho : c ≠ '(') (hc : c ≠ ')') : level [c] = 0 := by
  simp [level, ho, hc]

end Level

end Quoted

/-! ### Marks -/

open Quoted (Apart inside level outer split)

namespace Text

/-- The character stands at the offset outside of literals, and in front of it `l` more
parentheses open than close. -/
def MarkAt (c : Char) (l : Int) (n : Nat) (t : Text) : Prop :=
  ∃ x y, t = x ++ c :: y ∧ size x = n ∧ inside t n = false ∧ level (outer x) = l

section MarkAt

variable {c d : Char} {l : Int} {n : Nat} {r t : Text}

theorem not_markAt_nil : ¬MarkAt c l n [] := by
  rintro ⟨x, y, h, -⟩
  simp at h

theorem markAt_literal : MarkAt c l n ('"' :: r) ↔
    ∃ k, n = size ('"' :: (split r).1) + k ∧ MarkAt c l k (split r).2 := by
  constructor
  · rintro ⟨x, y, heq, rfl, hout, rfl⟩
    have hinside := Quoted.inside_literal (t := r) (n := size x) List.prefix_rfl
    rw [Quoted.literal_append, hout, eq_comm, Bool.or_eq_false_iff,
      decide_eq_false_iff_not] at hinside
    obtain ⟨u, rfl, hsplit⟩ := exists_of_append_eq ((Quoted.literal_append r).trans heq)
      (Nat.le_of_not_lt hinside.1)
    refine ⟨size u, size_append _ _, u, y, hsplit, rfl, ?_, ?_⟩
    · have hu := hinside.2
      rwa [size_append, Nat.add_sub_cancel_left] at hu
    · exact (Quoted.outer_literal ⟨c :: y, hsplit.symm⟩).symm ▸ rfl
  · rintro ⟨k, rfl, x, y, hsplit, rfl, hout, rfl⟩
    refine ⟨'"' :: (split r).1 ++ x, y, ?_, size_append _ _, ?_, ?_⟩
    · rw [List.append_assoc, ← hsplit, Quoted.literal_append]
    · have hinside := Quoted.inside_literal (t := r) (n := size ('"' :: (split r).1) + size x)
        List.prefix_rfl
      rw [Quoted.literal_append] at hinside
      rw [hinside, decide_eq_false (by omega), Bool.false_or, Nat.add_sub_cancel_left, hout]
    · rw [Quoted.outer_literal ⟨c :: y, hsplit.symm⟩]

theorem markAt_cons (hd : d ≠ '"') : MarkAt c l n (d :: r) ↔
    (n = 0 ∧ d = c ∧ l = 0) ∨ ∃ k, n = d.utf8Size + k ∧ MarkAt c (l - level [d]) k r := by
  constructor
  · rintro ⟨x, y, heq, rfl, hout, rfl⟩
    cases x with
    | nil =>
      cases heq
      exact .inl ⟨rfl, rfl, by rw [Quoted.outer_nil, Quoted.level_nil]⟩
    | cons e x =>
      cases heq
      rw [size_cons, Quoted.inside_cons hd] at hout
      refine .inr ⟨size x, size_cons _ _, x, y, rfl, rfl, hout, ?_⟩
      rw [Quoted.outer_cons hd, Quoted.level_cons]
      omega
  · rintro (⟨rfl, rfl, rfl⟩ | ⟨k, rfl, x, y, rfl, rfl, hout, hl⟩)
    · exact ⟨[], r, rfl, rfl, Quoted.inside_zero hd, by rw [Quoted.outer_nil, Quoted.level_nil]⟩
    · refine ⟨d :: x, y, rfl, size_cons _ _, ?_, ?_⟩
      · rw [Quoted.inside_cons hd, hout]
      · rw [Quoted.outer_cons hd, Quoted.level_cons, hl]
        omega

end MarkAt

end Text

namespace Macro

/-! ### The way of the reader -/

/-- The offsets of the commas between the pieces of a list. -/
def commas : List Text → List Nat
  | p :: q :: ps => size p :: (commas (q :: ps)).map (size p + 1 + ·)
  | _ => []

/-- The parentheses of a piece match, if `d` of them are open in front of it: they are all closed
at its end, and no others. -/
def BalancedFrom (d : Nat) (p : Text) : Prop :=
  level (outer p) = -d ∧ ∀ s, s <+: outer p → -d ≤ level s

/-- Each parenthesis of the text outside of literals has its counterpart in it. -/
abbrev Balanced (p : Text) : Prop := BalancedFrom 0 p

/-- The reader takes its way over a text, with `d` parentheses open in the current piece. -/
inductive Collects : Nat → Text → List Text → Text → Prop
  | close (r : Text) : Collects 0 (')' :: r) [[]] r
  | comma {r p after : Text} {ps : List Text} : Collects 0 r (p :: ps) after →
      Collects 0 (',' :: r) ([] :: p :: ps) after
  | literal {d : Nat} {r p after : Text} {ps : List Text} :
      Collects d (split r).2 (p :: ps) after →
      Collects d ('"' :: r) (('"' :: (split r).1 ++ p) :: ps) after
  | mark {c : Char} {d d' : Nat} {r p after : Text} {ps : List Text} : c ≠ '"' →
      (d' : Int) = d + level [c] → (c = ',' → d ≠ 0) → Collects d' r (p :: ps) after →
      Collects d (c :: r) ((c :: p) :: ps) after

section Pieces

variable {c : Char} {d d' k : Nat} {p q s : Text} {ps : List Text}

theorem mem_commas_cons_cons : k ∈ commas (p :: q :: ps) ↔
    k = size p ∨ ∃ j, k = size p + 1 + j ∧ j ∈ commas (q :: ps) := by
  simp [commas, eq_comm, and_comm]

theorem mem_commas_tail : size p + 1 + k ∈ commas (p :: q :: ps) ↔ k ∈ commas (q :: ps) := by
  rw [mem_commas_cons_cons]
  constructor
  · rintro (h | ⟨j, h, hj⟩)
    · omega
    · cases Nat.add_left_cancel h
      exact hj
  · intro hk
    exact .inr ⟨k, rfl, hk⟩

theorem mem_commas_append : k ∈ commas ((s ++ p) :: ps) ↔
    ∃ j, k = size s + j ∧ j ∈ commas (p :: ps) := by
  cases ps with
  | nil => simp [commas]
  | cons q ps =>
    simp only [mem_commas_cons_cons, Text.size_append]
    constructor
    · rintro (rfl | ⟨j, rfl, hj⟩)
      · exact ⟨_, rfl, .inl rfl⟩
      · exact ⟨_, by omega, .inr ⟨j, rfl, hj⟩⟩
    · rintro ⟨_, rfl, rfl | ⟨j, rfl, hj⟩⟩
      · exact .inl rfl
      · exact .inr ⟨j, by omega, hj⟩

theorem balancedFrom_nil : Balanced [] := by
  refine ⟨by simp, fun s hs => ?_⟩
  rw [Quoted.outer_nil, List.prefix_nil] at hs
  simp [hs]

theorem BalancedFrom.cons (h : BalancedFrom d' p) (hc : c ≠ '"')
    (hd : (d' : Int) = d + level [c]) : BalancedFrom d (c :: p) := by
  obtain ⟨hlevel, hfronts⟩ := h
  rw [BalancedFrom, Quoted.outer_cons hc, Quoted.level_cons]
  refine ⟨by omega, fun s hs => ?_⟩
  rcases List.prefix_cons_iff.mp hs with rfl | ⟨s, rfl, hfront⟩
  · rw [Quoted.level_nil]
    omega
  · have hle := hfronts s hfront
    rw [Quoted.level_cons]
    omega

end Pieces

section Collects

variable {d : Nat} {s t p after : Text} {ps : List Text}

/-- What the rest of a text gives has a first piece, and the text goes in front of it. -/
theorem exists_of_map_prependFirst
    (h : (collect? d t).map (prependFirst s) = some (ps, after)) :
    ∃ p ps', ps = (s ++ p) :: ps' ∧ collect? d t = some (p :: ps', after) := by
  obtain ⟨⟨_ | ⟨p, ps'⟩, after'⟩, hq, heq⟩ := Option.map_eq_some_iff.mp h
  · exact absurd rfl (weight_collect? hq).1
  · cases heq
    exact ⟨p, ps', rfl, hq⟩

theorem collects_of_collect? (h : collect? d t = some (ps, after)) : Collects d t ps after := by
  fun_induction collect? d t generalizing ps after with
  | case1 => cases h
  | case2 d c r hc ih =>
    obtain ⟨p, ps', rfl, hcollect⟩ := exists_of_map_prependFirst h
    cases eq_of_beq hc
    exact .literal (ih hcollect)
  | case3 d c r hq hc ih =>
    obtain ⟨p, ps', rfl, hcollect⟩ := exists_of_map_prependFirst h
    cases eq_of_beq hc
    exact .mark (by decide) (by simp) (by simp) (ih hcollect)
  | case4 c r hq ho hc =>
    cases eq_of_beq hc
    cases h
    exact .close r
  | case5 c r hq ho hc d ih =>
    obtain ⟨p, ps', rfl, hcollect⟩ := exists_of_map_prependFirst h
    cases eq_of_beq hc
    exact .mark (by decide) (by simp) (by simp) (ih hcollect)
  | case6 d c r hq ho hc hcomma ih =>
    obtain ⟨⟨ps', after'⟩, hcollect, heq⟩ := Option.map_eq_some_iff.mp h
    cases heq
    rw [Bool.and_eq_true, beq_iff_eq, beq_iff_eq] at hcomma
    obtain ⟨rfl, rfl⟩ := hcomma
    obtain ⟨p, ps, rfl⟩ := List.exists_cons_of_ne_nil (weight_collect? hcollect).1
    exact .comma (ih hcollect)
  | case7 d c r hq ho hc hcomma ih =>
    obtain ⟨p, ps', rfl, hcollect⟩ := exists_of_map_prependFirst h
    simp only [beq_iff_eq] at hq ho hc
    refine .mark hq (by rw [Quoted.level_other ho hc, add_zero]) ?_ (ih hcollect)
    rintro rfl rfl
    exact hcomma rfl

/-- The reader comes to an end if there is a parenthesis that closes the list. -/
theorem isSome_collect? {n : Nat} (h : Text.MarkAt ')' (-d) n t) : (collect? d t).isSome := by
  fun_induction collect? d t generalizing n with
  | case1 => exact absurd h Text.not_markAt_nil
  | case2 d c r hc ih =>
    cases eq_of_beq hc
    obtain ⟨k, -, hk⟩ := Text.markAt_literal.mp h
    rw [Option.isSome_map, ih hk]
  | case3 d c r hq hc ih =>
    cases eq_of_beq hc
    rcases (Text.markAt_cons (by decide)).mp h with ⟨-, hne, -⟩ | ⟨k, -, hk⟩
    · cases hne
    · rw [Option.isSome_map]
      apply ih
      rwa [Nat.cast_succ, neg_add]
  | case4 => rfl
  | case5 c r hq ho hc d ih =>
    cases eq_of_beq hc
    rcases (Text.markAt_cons (by decide)).mp h with ⟨-, -, hd⟩ | ⟨k, -, hk⟩
    · omega
    · rw [Option.isSome_map]
      apply ih
      rwa [Nat.cast_succ, neg_add, Quoted.level_closing, sub_neg_eq_add, neg_add_cancel_right]
        at hk
  | case6 d c r hq ho hc hcomma ih =>
    rw [Bool.and_eq_true, beq_iff_eq, beq_iff_eq] at hcomma
    obtain ⟨rfl, rfl⟩ := hcomma
    rcases (Text.markAt_cons (by decide)).mp h with ⟨-, hne, -⟩ | ⟨k, -, hk⟩
    · cases hne
    · rw [Option.isSome_map]
      exact ih hk
  | case7 d c r hq ho hc hcomma ih =>
    simp only [beq_iff_eq] at hq ho hc
    rcases (Text.markAt_cons hq).mp h with ⟨-, hne, -⟩ | ⟨k, -, hk⟩
    · exact absurd hne hc
    · rw [Option.isSome_map]
      apply ih
      rwa [Quoted.level_other ho hc, sub_zero] at hk

namespace Collects

/-- The pieces with commas between them, a closing parenthesis and the rest are the text. -/
theorem text_eq (h : Collects d t ps after) : t = Text.join [','] ps ++ ')' :: after := by
  induction h with
  | close => rfl
  | comma _ ih =>
    rw [Text.join_cons_cons, List.nil_append, List.append_assoc, ← ih]
    rfl
  | literal _ ih => rw [Text.join_append_cons, List.append_assoc, ← ih, Quoted.literal_append]
  | @mark c _ _ _ p _ ps _ _ _ _ ih =>
    rw [show c :: p = [c] ++ p from rfl, Text.join_append_cons, List.append_assoc, ← ih]
    rfl

/-- The parenthesis where the reader ends closes the list. -/
theorem markAt (h : Collects d t ps after) :
    Text.MarkAt ')' (-d) (size (Text.join [','] ps)) t := by
  induction h with
  | close r => exact (Text.markAt_cons (by decide)).mpr (.inl ⟨rfl, rfl, rfl⟩)
  | comma _ ih =>
    refine (Text.markAt_cons (by decide)).mpr (.inr ⟨_, ?_, ih⟩)
    rw [Text.join_cons_cons, List.nil_append, Text.size_append]
    rfl
  | literal _ ih =>
    rw [Text.join_append_cons, Text.size_append]
    exact Text.markAt_literal.mpr ⟨_, rfl, ih⟩
  | @mark c d d' _ p _ ps hq hd _ _ ih =>
    refine (Text.markAt_cons hq).mpr (.inr ⟨size (Text.join [','] (p :: ps)), ?_, ?_⟩)
    · rw [show c :: p = [c] ++ p from rfl, Text.join_append_cons]
      exact Text.size_cons _ _
    · rwa [show -(d : Int) - level [c] = -d' by omega]

/-- No parenthesis in front of it closes the list. -/
theorem le_of_markAt (h : Collects d t ps after) {n : Nat} (hn : Text.MarkAt ')' (-d) n t) :
    size (Text.join [','] ps) ≤ n := by
  induction h generalizing n with
  | close => exact Nat.zero_le n
  | comma _ ih =>
    rcases (Text.markAt_cons (by decide)).mp hn with ⟨-, hne, -⟩ | ⟨k, rfl, hk⟩
    · cases hne
    · rw [Text.join_cons_cons, List.nil_append, Text.size_append]
      exact Nat.add_le_add_left (ih hk) _
  | literal _ ih =>
    obtain ⟨k, rfl, hk⟩ := Text.markAt_literal.mp hn
    rw [Text.join_append_cons, Text.size_append]
    exact Nat.add_le_add_left (ih hk) _
  | @mark c d d' _ p _ ps hq hd _ _ ih =>
    rcases (Text.markAt_cons hq).mp hn with ⟨-, rfl, hzero⟩ | ⟨k, rfl, hk⟩
    · rw [Quoted.level_closing] at hd
      omega
    · rw [show -(d : Int) - level [c] = -d' by omega] at hk
      rw [show c :: p = [c] ++ p from rfl, Text.join_append_cons]
      exact (Text.size_cons _ _).trans_le (Nat.add_le_add_left (ih hk) _)

/-- The list is cut at the commas with no other parenthesis open. -/
theorem mem_commas_iff (h : Collects d t ps after) {k : Nat} :
    k ∈ commas ps ↔ k < size (Text.join [','] ps) ∧ Text.MarkAt ',' (-d) k t := by
  induction h generalizing k with
  | close => simp [commas, Text.join]
  | @comma r p _ ps _ ih =>
    have hsize : size (Text.join [','] ([] :: p :: ps)) = 1 + size (Text.join [','] (p :: ps)) := by
      rw [Text.join_cons_cons, List.nil_append, Text.size_append]
      rfl
    rw [mem_commas_cons_cons, hsize, Text.markAt_cons (by decide)]
    constructor
    · rintro (rfl | ⟨j, rfl, hj⟩)
      · exact ⟨by rw [Text.size_nil]; omega, .inl ⟨rfl, rfl, rfl⟩⟩
      · obtain ⟨hlt, hmark⟩ := ih.mp hj
        exact ⟨by rw [Text.size_nil]; omega, .inr ⟨j, rfl, hmark⟩⟩
    · rintro ⟨hlt, ⟨rfl, -, -⟩ | ⟨j, rfl, hj⟩⟩
      · exact .inl rfl
      · exact .inr ⟨j, rfl, ih.mpr ⟨Nat.lt_of_add_lt_add_left hlt, hj⟩⟩
  | literal _ ih =>
    rw [mem_commas_append, Text.join_append_cons, Text.size_append, Text.markAt_literal]
    constructor
    · rintro ⟨j, rfl, hj⟩
      obtain ⟨hlt, hmark⟩ := ih.mp hj
      exact ⟨Nat.add_lt_add_left hlt _, j, rfl, hmark⟩
    · rintro ⟨hlt, j, rfl, hj⟩
      exact ⟨j, rfl, ih.mpr ⟨Nat.lt_of_add_lt_add_left hlt, hj⟩⟩
  | @mark c d d' _ p _ ps hq hd hcomma _ ih =>
    have hlevel : -(d : Int) - level [c] = -d' := by omega
    have hsize : size [c] = c.utf8Size := Text.size_cons _ _
    rw [show c :: p = [c] ++ p from rfl, mem_commas_append, Text.join_append_cons,
      Text.size_append, Text.markAt_cons hq, hlevel, hsize]
    constructor
    · rintro ⟨j, rfl, hj⟩
      obtain ⟨hlt, hmark⟩ := ih.mp hj
      exact ⟨Nat.add_lt_add_left hlt _, .inr ⟨j, rfl, hmark⟩⟩
    · rintro ⟨hlt, ⟨-, rfl, hzero⟩ | ⟨j, rfl, hj⟩⟩
      · exact absurd (by omega) (hcomma rfl)
      · exact ⟨j, rfl, ih.mpr ⟨Nat.lt_of_add_lt_add_left hlt, hj⟩⟩

/-- Parentheses match in each piece. -/
theorem balanced (h : Collects d t ps after) :
    ∃ p qs, ps = p :: qs ∧ BalancedFrom d p ∧ ∀ q ∈ qs, Balanced q := by
  induction h with
  | close => exact ⟨[], [], rfl, balancedFrom_nil, nofun⟩
  | @comma r p _ ps _ ih =>
    obtain ⟨_, _, heq, hp, hps⟩ := ih
    cases heq
    exact ⟨[], p :: ps, rfl, balancedFrom_nil, List.forall_mem_cons.mpr ⟨hp, hps⟩⟩
  | @literal d r p _ ps hcollects ih =>
    obtain ⟨_, _, heq, hp, hps⟩ := ih
    cases heq
    refine ⟨_, ps, rfl, ?_, hps⟩
    -- The literal ends in the piece where it ends in the text.
    have hfront : p <+: (split r).2 := by
      have hjoin := Text.join_append_cons [','] p [] ps
      rw [List.append_nil] at hjoin
      rw [hcollects.text_eq, hjoin, List.append_assoc]
      exact List.prefix_append ..
    rwa [BalancedFrom, Quoted.outer_literal hfront]
  | @mark c _ _ _ p _ ps hq hd _ _ ih =>
    obtain ⟨_, _, heq, hp, hps⟩ := ih
    cases heq
    exact ⟨_, ps, rfl, hp.cons hq hd, hps⟩

end Collects

end Collects

/-! ### Lists of arguments -/

/-- The text starts with a list of arguments: a parenthesis, the pieces with commas between them,
and the parenthesis that closes it.  No earlier parenthesis does, the commas are those of the
text with no other parenthesis open, and the parentheses of each piece match. -/
structure IsArgumentList (t : Text) (pieces : List Text) (after : Text) : Prop where
  ne_nil : pieces ≠ []
  text_eq : t = '(' :: Text.join [','] pieces ++ ')' :: after
  closes : Text.MarkAt ')' 1 (1 + size (Text.join [','] pieces)) t
  first : ∀ n, Text.MarkAt ')' 1 n t → 1 + size (Text.join [','] pieces) ≤ n
  cuts : ∀ k, k ∈ commas pieces ↔
    k < size (Text.join [','] pieces) ∧ Text.MarkAt ',' 1 (1 + k) t
  balanced : ∀ p ∈ pieces, Balanced p

section IsArgumentList

variable {t inner after after' : Text} {ps ps' : List Text}

/-- Behind the parenthesis that opens a list, one parenthesis less is open. -/
theorem markAt_opening {c : Char} {k : Nat} :
    Text.MarkAt c 1 (1 + k) ('(' :: inner) ↔ Text.MarkAt c 0 k inner := by
  rw [Text.markAt_cons (by decide)]
  constructor
  · rintro (⟨-, -, hone⟩ | ⟨j, hj, hmark⟩)
    · cases hone
    · cases Nat.add_left_cancel hj
      exact hmark
  · intro hmark
    exact .inr ⟨k, rfl, hmark⟩

theorem exists_markAt_opening {c : Char} :
    (∃ n, Text.MarkAt c 1 n ('(' :: inner)) ↔ ∃ k, Text.MarkAt c 0 k inner := by
  constructor
  · rintro ⟨n, hn⟩
    rcases (Text.markAt_cons (by decide)).mp hn with ⟨-, -, hone⟩ | ⟨k, -, hk⟩
    · cases hone
    · exact ⟨k, hk⟩
  · rintro ⟨k, hk⟩
    exact ⟨1 + k, markAt_opening.mpr hk⟩

theorem Collects.isArgumentList (h : Collects 0 inner ps after) :
    IsArgumentList ('(' :: inner) ps after := by
  obtain ⟨p, qs, rfl, hp, hqs⟩ := h.balanced
  refine ⟨List.cons_ne_nil _ _, ?_, markAt_opening.mpr h.markAt, ?_, fun k => ?_, ?_⟩
  · exact congrArg ('(' :: ·) h.text_eq
  · intro n hn
    rcases (Text.markAt_cons (by decide)).mp hn with ⟨-, -, hone⟩ | ⟨k, rfl, hk⟩
    · cases hone
    · exact Nat.add_le_add_left (h.le_of_markAt hk) 1
  · rw [markAt_opening]
    exact h.mem_commas_iff
  · exact List.forall_mem_cons.mpr ⟨hp, hqs⟩

/-- Pieces are given by what they make up and by the places of the commas between them. -/
theorem eq_of_join_eq (hne : ps ≠ []) (hne' : ps' ≠ [])
    (hjoin : Text.join [','] ps = Text.join [','] ps')
    (hcommas : ∀ k, k ∈ commas ps ↔ k ∈ commas ps') : ps = ps' := by
  induction ps generalizing ps' with
  | nil => exact absurd rfl hne
  | cons p ps ih =>
    obtain ⟨p', ps', rfl⟩ := List.exists_cons_of_ne_nil hne'
    have first : ∀ {p q : Text} {qs : List Text}, size p ∈ commas (p :: q :: qs) :=
      mem_commas_cons_cons.mpr (.inl rfl)
    match ps, ps' with
    | [], [] =>
      exact congrArg (fun s => [s]) hjoin
    | [], q' :: ps' => exact absurd ((hcommas _).mpr first) List.not_mem_nil
    | q :: ps, [] => exact absurd ((hcommas _).mp first) List.not_mem_nil
    | q :: ps, q' :: ps' =>
      -- The first commas are the same, because none of the others is further to the front.
      have hsize : size p = size p' := by
        rcases mem_commas_cons_cons.mp ((hcommas _).mp first) with h | ⟨j, h, -⟩
        · exact h
        · rcases mem_commas_cons_cons.mp ((hcommas _).mpr first) with h' | ⟨j', h', -⟩
          · exact h'.symm
          · omega
      rw [Text.join_cons_cons, Text.join_cons_cons, List.append_assoc, List.append_assoc] at hjoin
      obtain ⟨rfl, hrest⟩ := Text.append_inj_of_size hjoin hsize
      refine congrArg (p :: ·) (ih (List.cons_ne_nil _ _) (List.cons_ne_nil _ _) ?_ fun k => ?_)
      · exact (List.cons.inj hrest).2
      · have h := hcommas (size p + 1 + k)
        rwa [mem_commas_tail, mem_commas_tail] at h

/-- A text starts with one list of arguments at most. -/
theorem IsArgumentList.unique (h : IsArgumentList t ps after) (h' : IsArgumentList t ps' after') :
    ps = ps' ∧ after = after' := by
  have hsize : size (Text.join [','] ps) = size (Text.join [','] ps') := by
    have hle := h.first _ h'.closes
    have hge := h'.first _ h.closes
    omega
  have htext := h.text_eq.symm.trans h'.text_eq
  rw [List.cons_append, List.cons_append] at htext
  obtain ⟨hjoin, hafter⟩ := Text.append_inj_of_size (List.cons.inj htext).2 hsize
  refine ⟨eq_of_join_eq h.ne_nil h'.ne_nil hjoin fun k => ?_, (List.cons.inj hafter).2⟩
  rw [h.cuts, h'.cuts, hsize]

/-- The reader finds something just if a parenthesis closes the list. -/
theorem isSome_collect?_iff :
    (collect? 0 inner).isSome ↔ ∃ n, Text.MarkAt ')' 1 n ('(' :: inner) := by
  rw [exists_markAt_opening]
  constructor
  · intro h
    obtain ⟨⟨ps, after⟩, hcollect⟩ := Option.isSome_iff_exists.mp h
    exact ⟨_, (collects_of_collect? hcollect).markAt⟩
  · rintro ⟨k, hk⟩
    exact isSome_collect? (d := 0) hk

/-- **What the reader finds is the list of arguments that the text starts with.** -/
theorem collect?_eq_some_iff :
    collect? 0 inner = some (ps, after) ↔ IsArgumentList ('(' :: inner) ps after := by
  constructor
  · intro h
    exact (collects_of_collect? h).isArgumentList
  · intro h
    obtain ⟨⟨ps', after'⟩, hcollect⟩ :=
      Option.isSome_iff_exists.mp (isSome_collect?_iff.mpr ⟨_, h.closes⟩)
    obtain ⟨rfl, rfl⟩ := h.unique (collects_of_collect? hcollect).isArgumentList
    exact hcollect

end IsArgumentList

/-! ### Arguments of a replacement text -/

/-- The number of the argument that a segment puts in. -/
def Segment.index? : Segment → Option Nat
  | .arg i | .rawArg i | .quoted i => some i
  | .text _ | .paste => none

/-- The text that a segment stands for, if its argument is there. -/
def Segment.render? (raw expanded : List Text) : Segment → Option Text
  | .text t => some t
  | .arg i => expanded[i]?
  | .rawArg i => raw[i]?
  | .quoted i => raw[i]?.map quote
  | .paste => some []

/-- A replacement text with the arguments in place, if all of them are there. -/
def render? (raw expanded : List Text) (body : List Segment) : Option Text :=
  (body.mapM (Segment.render? raw expanded)).map List.flatten

section Render

variable {params : Option (List String)} {body : Text} {raw expanded args : List Text}
  {ss : List Segment} {s : Segment} {i n : Nat}

/-- The segments put in the first `n` arguments, and no others. -/
def NumberedBelow (n : Nat) (ss : List Segment) : Prop := ∀ s ∈ ss, ∀ i ∈ s.index?, i < n

theorem Segment.render?_eq_some (hraw : ∀ i ∈ s.index?, i < raw.length)
    (hexpanded : expanded.length = raw.length) :
    s.render? raw expanded = some (s.render raw expanded) := by
  cases s with
  | text t => rfl
  | paste => rfl
  | arg i =>
    have hi : i < expanded.length := hexpanded ▸ hraw i rfl
    simp [Segment.render?, Segment.render, hi]
  | rawArg i =>
    have hi := hraw i rfl
    simp [Segment.render?, Segment.render, hi]
  | quoted i =>
    have hi := hraw i rfl
    simp [Segment.render?, Segment.render, hi]

/-- **No argument is missing if there are as many as the segments ask for.** -/
theorem render?_eq_render (h : NumberedBelow raw.length ss)
    (hexpanded : expanded.length = raw.length) :
    render? raw expanded ss = some (render raw expanded ss) := by
  have hmap : ss.mapM (Segment.render? raw expanded) =
      some (ss.map (Segment.render raw expanded)) := by
    induction ss with
    | nil => rfl
    | cons s ss ih =>
      obtain ⟨hs, hss⟩ := List.forall_mem_cons.mp h
      rw [List.mapM_cons, Segment.render?_eq_some hs hexpanded, ih hss]
      rfl
  rw [render?, hmap, render, List.flatMap_def]
  rfl

theorem numberedBelow_nil : NumberedBelow n [] := nofun

theorem numberedBelow_cons :
    NumberedBelow n (s :: ss) ↔ (∀ i ∈ s.index?, i < n) ∧ NumberedBelow n ss :=
  List.forall_mem_cons

theorem NumberedBelow.cons (h : NumberedBelow n ss) (hs : ∀ i ∈ s.index?, i < n) :
    NumberedBelow n (s :: ss) :=
  numberedBelow_cons.mpr ⟨hs, h⟩

theorem lt_of_paramIndex? {w : Text} (h : paramIndex? params w = some i) :
    i < (params.getD []).length := by
  unfold paramIndex? at h
  split at h
  · obtain ⟨ps, rfl, hfind⟩ := Option.bind_eq_some_iff.mp h
    obtain ⟨hlt, -⟩ := List.findIdx?_eq_some_iff_getElem.mp hfind
    exact hlt
  · cases h

/-- The numbers in a replacement text come from the places of the parameters. -/
theorem numberedBelow_segments (params : Option (List String)) (body : Text) :
    NumberedBelow (params.getD []).length (segments params body) := by
  refine forall_mem_segments (by simp [Segment.index?]) (by simp [Segment.index?]) ?_ body
  intro w i hi
  have hlt := lt_of_paramIndex? hi
  constructor
  · rintro _ ⟨⟩
    exact hlt
  · rintro _ ⟨⟩
    exact hlt

theorem Segment.index?_raw (s : Segment) : s.raw.index? = s.index? := by
  cases s <;> rfl

/-- Pasting drops segments and takes arguments as written, and changes no number. -/
theorem NumberedBelow.markPasted (h : NumberedBelow n ss) (afterPaste : Bool) :
    NumberedBelow n (markPasted afterPaste ss) := by
  fun_induction Macro.markPasted afterPaste ss with
  | case1 => exact numberedBelow_nil
  | case2 afterPaste r ih => exact (ih (numberedBelow_cons.mp h).2).cons nofun
  | case3 afterPaste s r _ pasted _ _ ih => exact ih (numberedBelow_cons.mp h).2
  | case4 afterPaste s r _ pasted _ _ ih =>
    obtain ⟨hs, hr⟩ := numberedBelow_cons.mp h
    exact (ih hr).cons hs
  | case5 afterPaste s r _ pasted _ ih =>
    obtain ⟨hs, hr⟩ := numberedBelow_cons.mp h
    apply (ih hr).cons
    split
    · rwa [Segment.index?_raw]
    · exact hs

theorem numberedBelow_of_ofDefinition? {name : String} {m : Macro}
    (h : ofDefinition? name params body = some m) :
    NumberedBelow (m.params.getD []).length m.body := by
  unfold ofDefinition? at h
  split at h
  · cases h
    exact (numberedBelow_segments _ body).markPasted false
  · cases h

/-- A macro gets as many arguments as it has parameters. -/
theorem length_of_matchParams? {count : Nat} {variadic : Bool}
    (h : matchParams? count variadic args = some raw) : raw.length = count := by
  unfold matchParams? at h
  split at h
  · next hzero =>
    split at h
    · cases h
      exact hzero.symm
    · cases h
  · split at h
    · split at h
      · cases h
      · cases h
        rw [List.length_append, List.length_take, List.length_singleton]
        omega
    · split at h
      · next hlength =>
        cases h
        exact hlength
      · cases h

theorem length_of_mapM {α β ε : Type} {f : α → Except ε β} {as : List α} {bs : List β}
    (h : as.mapM f = .ok bs) : bs.length = as.length := by
  induction as generalizing bs with
  | nil =>
    cases h
    rfl
  | cons a as ih =>
    rw [List.mapM_cons] at h
    obtain ⟨b, -, h⟩ := Preprocessed.bind_eq_ok.mp h
    obtain ⟨bs', hbs, h⟩ := Preprocessed.bind_eq_ok.mp h
    cases h
    rw [List.length_cons, List.length_cons, ih hbs]

theorem ReadsArgs.length_eq {m : Macro} {rest after : Text} (h : ReadsArgs m rest args after) :
    args.length = (m.params.getD []).length := by
  cases h with
  | none hp => rw [hp]; rfl
  | some hp _ _ hmatch => rw [hp, length_of_matchParams? hmatch]; rfl

end Render

/-- **Lists of arguments are read as they stand, and no argument is missing.**  The reader finds
a list just if a parenthesis closes it, and then it finds the one that is there; the literals in
it are those of the whole text, if it does not start in one.  A macro gets as many arguments as
it has parameters, its replacement text asks for no more, and putting them in does not fail. -/
theorem arguments_exact (inner : Text) :
    ((collect? 0 inner).isSome ↔ ∃ n, Text.MarkAt ')' 1 n ('(' :: inner)) ∧
      (∀ pieces after, collect? 0 inner = some (pieces, after) ↔
        IsArgumentList ('(' :: inner) pieces after) ∧
      (∀ before, inside (before ++ '(' :: inner) (size before) = false →
        ∀ n, inside (before ++ '(' :: inner) (size before + n) = inside ('(' :: inner) n) ∧
      ∀ name params body m, ofDefinition? name params body = some m →
        (∀ ps args raw, m.params = some ps → matchParams? ps.length m.variadic args = some raw →
          raw.length = ps.length) ∧
        (∀ s ∈ m.body, ∀ i ∈ s.index?, i < (m.params.getD []).length) ∧
        ∀ rest args after table disabled expanded, ReadsArgs m rest args after →
          args.mapM (Table.expandUnder table disabled) = .ok expanded →
          render? args expanded m.body = some (render args expanded m.body) := by
  refine ⟨isSome_collect?_iff, fun _ _ => collect?_eq_some_iff, ?_, ?_⟩
  · intro before hout n
    exact (Quoted.apart_of_inside hout).inside_append n
  · intro name params body m hm
    have hbelow := numberedBelow_of_ofDefinition? hm
    refine ⟨fun _ _ _ _ hmatch => length_of_matchParams? hmatch, hbelow, ?_⟩
    intro rest args after table disabled expanded hargs hexpanded
    apply render?_eq_render _ (length_of_mapM hexpanded)
    rwa [hargs.length_eq]

/-- A macro that quotes its first argument and pastes the others. -/
def pasteMacro : Macro where
  name := "F"
  params := some ["x", "__VA_ARGS__"]
  variadic := true
  body := [.quoted 0, .text ['+'], .rawArg 1, .paste, .text ['_']]

/-- A call is an argument as a whole, and marks in a literal do not count. -/
theorem arguments_exact_pasteMacro :
    (collect? 0 "(1,2),\",\")c".toList).isSome ∧
      IsArgumentList "((1,2),\",\")c".toList ["(1,2)".toList, "\",\"".toList] ['c'] ∧
      inside "\"(\"F((1,2),\",\")c".toList (size "\"(\"F".toList + 8) = true ∧
      ["(1,2)".toList, "\",\"".toList].length = 2 ∧
      (∀ s ∈ pasteMacro.body, ∀ i ∈ s.index?, i < 2) ∧
      render? ["(1,2)".toList, "\",\"".toList] ["(1,2)".toList, "\",\"".toList] pasteMacro.body =
        some "\"(1,2)\"+\",\"_".toList := by
  have hcollect : collect? 0 "(1,2),\",\")c".toList =
      some (["(1,2)".toList, "\",\"".toList], ['c']) := by cbv
  have hm : ofDefinition? "F" (some ["x", "..."]) "#x+__VA_ARGS__##_".toList = some pasteMacro := by
    cbv
  have hmatch : matchParams? 2 true ["(1,2)".toList, "\",\"".toList] =
      some ["(1,2)".toList, "\",\"".toList] := by cbv
  have hargs : ReadsArgs pasteMacro "((1,2),\",\")c".toList
      ["(1,2)".toList, "\",\"".toList] ['c'] := .some rfl (by cbv) hcollect (by cbv)
  have hexpanded : ["(1,2)".toList, "\",\"".toList].mapM (Table.expandUnder ⟨[]⟩ []) =
      .ok ["(1,2)".toList, "\",\"".toList] := by cbv
  obtain ⟨hsome, hlist, hliterals, harguments⟩ := arguments_exact "(1,2),\",\")c".toList
  obtain ⟨hlength, hbelow, hrender⟩ := harguments _ _ _ _ hm
  refine ⟨?_, (hlist _ _).mp hcollect, ?_, hlength _ _ _ rfl hmatch, hbelow, ?_⟩
  · rw [hcollect]
    rfl
  · exact (hliterals "\"(\"F".toList (by cbv) 8).trans (by cbv)
  · exact (hrender _ _ _ _ _ _ hargs hexpanded).trans (by decide)

end Macro

end PixelWrap
