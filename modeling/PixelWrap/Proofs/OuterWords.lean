import PixelWrap.Proofs.Excerpts
import PixelWrap.Proofs.Words

/-!
# Words outside of literals

A text starts with a literal, with a word or with another character, and so does what is behind
that.  What is known of the words in it comes from one statement for each of the three: where a
word stands in a text that starts so.

Where a word starts and whether it lies in a literal is judged from the text alone, without
cutting it.  The list of the words is what cutting gives, and both come to the same.

## Main definitions

* `Text.OuterWordAt`: a name stands at an offset as a whole word, outside of literals.
* `Text.outerWords`: the words of a text outside of literals.

## Main results

* `Text.item_induction`: a text starts with a literal, a word or another character.
* `Text.outerWordAt_literal`, `Text.outerWordAt_word`, `Text.outerWordAt_mark`: where words stand
  in a text that starts so.
* `Text.mem_outerWords_iff`: **the names in the list are those that stand in the text.**
-/

namespace PixelWrap

open Macro (startsInName endsInName IsWord)

namespace Quoted

/-- Where there is no quote, no byte lies in a literal. -/
theorem inside_of_notMem {t : Text} (h : '"' ∉ t) (n : Nat) : inside t n = false := by
  induction t generalizing n with
  | nil => rw [inside]
  | cons c t ih =>
    rw [List.mem_cons, not_or] at h
    rw [inside, if_neg (by simpa using Ne.symm h.1), ih h.2, Bool.and_false]

theorem inside_zero {c : Char} {r : Text} (hc : c ≠ '"') : inside (c :: r) 0 = false := by
  have hpos := c.utf8Size_pos
  rw [inside, if_neg (by simpa using hc), decide_eq_false (by omega), Bool.false_and]

end Quoted

/-! ### Words -/

namespace Macro

section IsWord

variable {w w' rest rest' v : Text}

theorem isNameChar_of_startsInName (hv : startsInName v = false) :
    ∀ c ∈ v.head?, isNameChar c = false := by
  intro c hc
  obtain ⟨v, rfl⟩ := List.head?_eq_some_iff.mp hc
  exact hv

theorem isWord_of_isName (hw : Text.isName w = true)
    (hrest : ∀ c ∈ rest.head?, isNameChar c = false) : IsWord w rest := by
  refine ⟨?_, Text.isNameChar_of_isName hw, hrest⟩
  rintro rfl
  cases hw

theorem isWord_singleton {c : Char} (hc : isNameChar c = true)
    (hrest : ∀ c ∈ rest.head?, isNameChar c = false) : IsWord [c] rest :=
  ⟨List.cons_ne_nil _ _, by simpa using hc, hrest⟩

theorem IsWord.append (h : IsWord w rest) (hv : startsInName v = false) :
    IsWord w (rest ++ v) := by
  refine ⟨h.ne_nil, h.chars, fun c hc => ?_⟩
  cases rest with
  | nil => exact isNameChar_of_startsInName hv c hc
  | cons d rest => exact h.stop c hc

theorem IsWord.startsInName (h : IsWord w rest) : Macro.startsInName (w ++ rest) = true := by
  obtain ⟨c, w, rfl⟩ := List.exists_cons_of_ne_nil h.ne_nil
  exact h.chars c (List.mem_cons_self ..)

theorem IsWord.startsInName_rest (h : IsWord w rest) : Macro.startsInName rest = false := by
  cases rest with
  | nil => rfl
  | cons c rest => exact h.stop c rfl

/-- A word stays one in front of a text that starts alike. -/
theorem IsWord.of_head? (h : IsWord w rest) (hv : v.head? = rest.head?) : IsWord w v :=
  ⟨h.ne_nil, h.chars, by rw [hv]; exact h.stop⟩

theorem IsWord.ne_quote (h : IsWord w rest) : ∀ c ∈ w, c ≠ '"' := by
  intro c hc
  simpa using ne_quote_of_isNameChar (h.chars c hc)

/-- Of two words that a text starts with, each is the other. -/
theorem IsWord.unique (hw : IsWord w rest) (hw' : IsWord w' rest')
    (h : w ++ rest = w' ++ rest') : w = w' := by
  have htake := congrArg (List.takeWhile isNameChar) h
  rwa [Condition.takeWhile_append_of_head hw.chars hw.stop,
    Condition.takeWhile_append_of_head hw'.chars hw'.stop] at htake

end IsWord

end Macro

namespace Text

/-! ### What a text starts with -/

/-- A text starts with a literal, with a word or with another character, unless it is empty. -/
@[elab_as_elim]
theorem item_induction {P : Text → Prop} (nil : P [])
    (literal : ∀ r, P (Quoted.split r).2 → P ('"' :: r))
    (word : ∀ w rest, IsWord w rest → P rest → P (w ++ rest))
    (mark : ∀ c r, c ≠ '"' → isNameChar c = false → P r → P (c :: r)) (t : Text) : P t := by
  induction hn : t.length using Nat.strongRecOn generalizing t with
  | ind n ih =>
    subst hn
    cases t with
    | nil => exact nil
    | cons c r =>
      by_cases hq : c = '"'
      · subst hq
        exact literal r (ih _ (Nat.lt_succ_of_le (Quoted.split_snd_suffix r).length_le) _ rfl)
      · by_cases hc : isNameChar c = true
        · have hrest := ih _ (Nat.lt_succ_of_le (List.dropWhile_suffix isNameChar).length_le)
            (r.dropWhile isNameChar) rfl
          have hword := word _ _ (Macro.isWord_takeWhile r hc) hrest
          rwa [List.cons_append, List.takeWhile_append_dropWhile] at hword
        · exact mark c r hq (by simpa using hc) (ih _ (Nat.lt_succ_self _) r rfl)

/-! ### Where words stand -/

/-- The name stands in the text at the offset as a whole word, and not in a string literal. -/
def OuterWordAt (w : Text) (n : Nat) (t : Text) : Prop :=
  WordAt w n t ∧ Quoted.inside t n = false

section OuterWordAt

variable {r rest s t w w' : Text} {c : Char} {n : Nat}

theorem eq_nil_of_endsInName (hs : ∀ c ∈ s, isNameChar c = true) (h : endsInName s = false) :
    s = [] := by
  by_contra hne
  rw [endsInName, List.getLast?_eq_some_getLast hne, Option.any_some,
    hs _ (List.getLast_mem hne)] at h
  cases h

/-- A word stays one behind a text, unless that ends in a name right in front of it. -/
theorem WordAt.append (h : WordAt w n t) (hs : startsInName t = true → endsInName s = false) :
    WordAt w (size s + n) (s ++ t) := by
  obtain ⟨before, after, rfl, rfl, hname, hb, ha⟩ := h
  refine ⟨s ++ before, after, by simp, size_append s before, hname, ?_, ha⟩
  refine Macro.endsInName_append_of (fun hnil => hs ?_) hb
  rw [hnil, List.nil_append]
  exact (Macro.isWord_of_isName hname (Macro.isNameChar_of_startsInName ha)).startsInName

/-- A word behind a text is one of the text behind it. -/
theorem WordAt.of_append_of_le (h : WordAt w n (s ++ t)) (hn : size s ≤ n) :
    WordAt w (n - size s) t := by
  obtain ⟨before, after, heq, rfl, hname, hb, ha⟩ := h
  rw [List.append_assoc] at heq
  obtain ⟨before', rfl, rfl⟩ := exists_of_append_eq heq hn
  refine ⟨before', after, by rw [List.append_assoc], ?_, hname, Macro.endsInName_of_append hb, ha⟩
  rw [size_append, Nat.add_sub_cancel_left]

/-- A word that starts within the word that a text starts with is that word. -/
theorem WordAt.eq_of_lt (h : WordAt w n (w' ++ rest)) (hw : IsWord w' rest) (hn : n < size w') :
    w = w' ∧ n = 0 := by
  obtain ⟨before, after, heq, rfl, hname, hb, ha⟩ := h
  rw [List.append_assoc] at heq
  rcases List.append_eq_append_iff.mp heq with ⟨x, rfl, -⟩ | ⟨x, hx, -⟩
  · rw [size_append] at hn
    omega
  · -- What stands in front is a part of the word, and it does not end in one.
    obtain rfl := eq_nil_of_endsInName
      (fun c hc => hw.chars c (by rw [hx]; exact List.mem_append_left x hc)) hb
    have hword := Macro.isWord_of_isName hname (Macro.isNameChar_of_startsInName ha)
    exact ⟨hword.unique hw heq.symm, rfl⟩

theorem not_outerWordAt_nil : ¬OuterWordAt w n [] := by
  rintro ⟨⟨before, after, heq, -, hname, -, -⟩, -⟩
  obtain rfl : w = [] := by simp_all
  cases hname

/-- No word stands in a literal or starts right behind one that is not closed. -/
theorem outerWordAt_literal : OuterWordAt w n ('"' :: r) ↔
    ∃ k, n = size ('"' :: (Quoted.split r).1) + k ∧ OuterWordAt w k (Quoted.split r).2 := by
  have happend : '"' :: r = '"' :: (Quoted.split r).1 ++ (Quoted.split r).2 := by
    rw [List.cons_append, Quoted.split_append]
  have hinside := Quoted.inside_literal (t := r) (n := n) List.prefix_rfl
  rw [← happend] at hinside
  constructor
  · rintro ⟨hword, hout⟩
    rw [hinside, Bool.or_eq_false_iff, decide_eq_false_iff_not] at hout
    rw [happend] at hword
    exact ⟨_, by omega, hword.of_append_of_le (by omega), hout.2⟩
  · rintro ⟨k, rfl, hword, hout⟩
    constructor
    · rw [happend]
      apply hword.append
      intro hstart
      rcases Macro.getLast?_split r with hend | hend
      · rw [hstart] at hend
        cases hend
      · simp [endsInName, List.getLast?_cons, hend]
        decide
    · rw [hinside, Bool.or_eq_false_iff, decide_eq_false_iff_not, Nat.add_sub_cancel_left]
      exact ⟨by omega, hout⟩

/-- The word that a text starts with stands there if it is a name, and the others stand behind
it. -/
theorem outerWordAt_word (hw : IsWord w' rest) : OuterWordAt w n (w' ++ rest) ↔
    (w = w' ∧ n = 0 ∧ isName w' = true) ∨ ∃ k, n = size w' + k ∧ OuterWordAt w k rest := by
  constructor
  · rintro ⟨hword, hout⟩
    by_cases hn : n < size w'
    · obtain ⟨rfl, rfl⟩ := hword.eq_of_lt hw hn
      exact .inl ⟨rfl, rfl, hword.isName⟩
    · obtain ⟨k, rfl⟩ := Nat.exists_eq_add_of_le (Nat.le_of_not_lt hn)
      rw [Quoted.inside_append_of_ne hw.ne_quote] at hout
      have hrest := hword.of_append_of_le (Nat.le_add_right ..)
      rw [Nat.add_sub_cancel_left] at hrest
      exact .inr ⟨k, rfl, hrest, hout⟩
  · rintro (⟨rfl, rfl, hname⟩ | ⟨k, rfl, hword, hout⟩)
    · refine ⟨⟨[], rest, rfl, rfl, hname, rfl, hw.startsInName_rest⟩, ?_⟩
      obtain ⟨c, w, rfl⟩ := List.exists_cons_of_ne_nil hw.ne_nil
      exact Quoted.inside_zero (hw.ne_quote c (List.mem_cons_self ..))
    · refine ⟨hword.append fun hstart => ?_, ?_⟩
      · rw [hw.startsInName_rest] at hstart
        cases hstart
      · rwa [Quoted.inside_append_of_ne hw.ne_quote]

/-- Words stand behind a character that belongs to none. -/
theorem outerWordAt_mark (hq : c ≠ '"') (hc : isNameChar c = false) :
    OuterWordAt w n (c :: r) ↔ ∃ k, n = c.utf8Size + k ∧ OuterWordAt w k r := by
  have hinside : ∀ k, Quoted.inside (c :: r) (c.utf8Size + k) = Quoted.inside r k := by
    intro k
    have happend := Quoted.inside_append_of_ne (s := [c]) (v := r) (n := k) (by simpa using hq)
    rwa [size_cons, size_nil, Nat.add_zero, List.singleton_append] at happend
  constructor
  · rintro ⟨hword, hout⟩
    obtain ⟨k, rfl, hk⟩ := hword.of_cons_of_eq_false hc
    rw [hinside] at hout
    exact ⟨k, rfl, hk, hout⟩
  · rintro ⟨k, rfl, hword, hout⟩
    exact ⟨hword.cons fun _ => hc, by rw [hinside, hout]⟩

end OuterWordAt

/-! ### The list of the words -/

/-- The words of a text that stand outside of string literals. -/
def outerWords : Text → List Text
  | [] => []
  | c :: r =>
    if c == '"' then outerWords (Quoted.split r).2
    else if isNameChar c then
      (c :: r.takeWhile isNameChar) :: outerWords (r.dropWhile isNameChar)
    else outerWords r
termination_by t => t.length
decreasing_by
  · exact Nat.lt_succ_of_le (Quoted.split_snd_suffix r).length_le
  · exact Nat.lt_succ_of_le (List.dropWhile_suffix _).length_le
  · exact Nat.lt_succ_self _

section OuterWords

variable {r s t v w : Text} {c : Char}

theorem outerWords_literal
    (h : startsInName (Quoted.split r).2 = false → v.head? = (Quoted.split r).2.head?) :
    outerWords ('"' :: (Quoted.split r).1 ++ v) = outerWords v := by
  rw [List.cons_append, outerWords, if_pos (beq_self_eq_true _),
    Quoted.split_of_head? fun hs c hc => by rwa [← h hs]]

theorem outerWords_word (hw : IsWord w v) : outerWords (w ++ v) = w :: outerWords v := by
  obtain ⟨c, w, rfl⟩ := List.exists_cons_of_ne_nil hw.ne_nil
  obtain ⟨hc, hchars⟩ := List.forall_mem_cons.mp hw.chars
  rw [List.cons_append, outerWords, if_neg (Macro.ne_quote_of_isNameChar hc), if_pos hc,
    Condition.takeWhile_append_of_head hchars hw.stop,
    Condition.dropWhile_append_of_head hchars hw.stop]

theorem outerWords_mark (hq : c ≠ '"') (hc : isNameChar c = false) :
    outerWords (c :: v) = outerWords v := by
  rw [outerWords, if_neg (by simpa using hq), if_neg (by simp [hc])]

/-- The words of a text without literals are apart from those of the text behind it. -/
theorem outerWords_append (hs : '"' ∉ s) (hv : startsInName v = false) :
    outerWords (s ++ v) = outerWords s ++ outerWords v := by
  induction s using item_induction with
  | nil => rw [outerWords]; rfl
  | literal r ih => exact absurd (List.mem_cons_self ..) hs
  | word w rest hw ih =>
    rw [List.append_assoc, outerWords_word (hw.append hv), outerWords_word hw,
      ih fun hmem => hs (List.mem_append_right w hmem)]
    rfl
  | mark c r hq hc ih =>
    rw [List.cons_append, outerWords_mark hq hc, outerWords_mark hq hc,
      ih fun hmem => hs (List.mem_cons_of_mem c hmem)]

theorem exists_add_iff {P : Nat → Prop} {m : Nat} : (∃ n k, n = m + k ∧ P k) ↔ ∃ k, P k :=
  ⟨fun ⟨_, k, _, hk⟩ => ⟨k, hk⟩, fun ⟨k, hk⟩ => ⟨m + k, k, rfl, hk⟩⟩

/-- **The names in the list are those that stand in the text outside of literals.** -/
theorem mem_outerWords_iff (hname : isName w = true) :
    w ∈ outerWords t ↔ ∃ n, OuterWordAt w n t := by
  induction t using item_induction with
  | nil =>
    rw [outerWords]
    exact iff_of_false List.not_mem_nil fun ⟨_, h⟩ => not_outerWordAt_nil h
  | literal r ih =>
    rw [outerWords, if_pos (beq_self_eq_true _), ih]
    simp only [outerWordAt_literal, exists_add_iff]
  | word w' rest hw ih =>
    rw [outerWords_word hw, List.mem_cons, ih]
    simp only [outerWordAt_word hw, exists_or, exists_add_iff]
    refine or_congr_left ⟨?_, fun ⟨_, h, _⟩ => h⟩
    rintro rfl
    exact ⟨0, rfl, rfl, hname⟩
  | mark c r hq hc ih =>
    rw [outerWords_mark hq hc, ih]
    simp only [outerWordAt_mark hq hc, exists_add_iff]

theorem mem_outerWords_of_wordAt {n : Nat} (h : WordAt w n t) (hn : Quoted.inside t n = false) :
    w ∈ outerWords t :=
  (mem_outerWords_iff h.isName).mpr ⟨n, h, hn⟩

end OuterWords

end Text

end PixelWrap
