import PixelWrap.Proofs.Printing

/-!
# Arguments as string literals

A `#` in front of a parameter turns the argument into a string literal.  The argument is written
on one line, with single spaces for white space, and its quotes and backslashes are escaped.  So
the literal cannot end too early: the scan of running text and the reader of tokens both find its
last quote, whatever stands behind it, and without the escapes it is the argument again.

## Main definitions

* `Quoted.unescape`: a text inside a literal without its escapes.
* `Text.collapse`: a text with a single space for each run of white space.

## Main results

* `Quoted.unescape_escape`: escaping can be undone.
* `Quoted.split_of_isEscaped`: a literal is left at its last quote.
* `Text.trim_collapse`: a text with single spaces is made up of its words.
* `Macro.render_quoted`: **an argument becomes one literal that stands for it.**
-/

namespace PixelWrap

/-! ### Escapes -/

namespace Quoted

/-- A text inside a literal without its escapes: a backslash makes way for the character that it
escapes. -/
def unescape : Text → Text
  | [] => []
  | '\\' :: c :: r => c :: unescape r
  | c :: r => c :: unescape r

/-- **Escaping can be undone.** -/
theorem unescape_escape (t : Text) : unescape (escape t) = t := by
  induction t with
  | nil => rfl
  | cons c r ih =>
    rw [escape]
    split
    · rw [unescape, ih]
    · next hc =>
      simp only [Bool.or_eq_true, beq_iff_eq, not_or] at hc
      rw [unescape, ih]
      exact fun _ _ heq => absurd heq hc.2

/-- A text of one line is escaped as a whole. -/
theorem isEscaped_escape {t : Text} (h : '\n' ∉ t) : Token.isEscaped (escape t) = true := by
  induction t with
  | nil => rfl
  | cons c r ih =>
    rw [List.mem_cons, not_or] at h
    rw [escape]
    split
    · rw [Token.isEscaped, ih h.2]
    · next hc =>
      simp only [Bool.or_eq_true, beq_iff_eq, not_or] at hc
      rw [Token.isEscaped, ih h.2]
      · simp [hc, Ne.symm h.1]
      · exact fun _ _ heq => absurd heq hc.2

/-- A literal is left at its last quote. -/
theorem split_of_isEscaped {t : Text} (h : Token.isEscaped t = true) (rest : Text) :
    split (t ++ '"' :: rest) = (t ++ ['"'], rest) := by
  fun_induction Token.isEscaped t with
  | case1 => rfl
  | case2 c t ih =>
    show split ('\\' :: c :: (t ++ '"' :: rest)) = _
    rw [split, ih h]
    rfl
  | case3 c t _ ih =>
    simp only [Bool.and_eq_true, bne_iff_ne, ne_eq] at h
    obtain ⟨⟨⟨hescape, hquote⟩, hline⟩, ht⟩ := h
    rw [List.cons_append, split_other hescape hquote hline, ih ht]
    rfl

end Quoted

/-! ### White space -/

namespace Text

/-- The text with a single space for each run of white space. -/
def collapse : Text → Text
  | [] => []
  | c :: r => if isSpace c then ' ' :: collapse (r.dropWhile isSpace) else c :: collapse r
termination_by t => t.length
decreasing_by
  · exact Nat.lt_succ_of_le (List.dropWhile_suffix _).length_le
  · exact Nat.lt_succ_self _

/-- A text starts with white space or with a word, unless it is empty. -/
@[elab_as_elim]
theorem words_induction {P : Text → Prop} (nil : P [])
    (space : ∀ c r, isSpace c = true → P (trimStart r) → P (c :: r))
    (word : ∀ w rest, w ≠ [] → (∀ c ∈ w, isSpace c = false) →
      (∀ c ∈ rest.head?, isSpace c = true) → P rest → P (w ++ rest)) (t : Text) : P t := by
  induction hn : t.length using Nat.strongRecOn generalizing t with
  | ind n ih =>
    subst hn
    cases t with
    | nil => exact nil
    | cons c r =>
      by_cases hc : isSpace c = true
      · exact space c r hc
          (ih _ (Nat.lt_succ_of_le (List.dropWhile_suffix isSpace).length_le) _ rfl)
      · have hrest := ih _ (Nat.lt_succ_of_le (List.dropWhile_suffix (!isSpace ·)).length_le)
          (r.dropWhile (!isSpace ·)) rfl
        have hword := word (c :: r.takeWhile (!isSpace ·)) _ (List.cons_ne_nil _ _) ?_ ?_ hrest
        · rwa [List.cons_append, List.takeWhile_append_dropWhile] at hword
        · refine List.forall_mem_cons.mpr ⟨by simpa using hc, fun d hd => ?_⟩
          simpa using List.mem_takeWhile_imp hd
        · intro d hd
          have hnot := List.head?_dropWhile_not (!isSpace ·) r
          rw [Option.mem_def.mp hd] at hnot
          simpa using hnot

section Words

variable {w rest : Text} {c : Char}

theorem words_space (hc : isSpace c = true) (r : Text) : words (c :: r) = words r := by
  rw [words.eq_def]
  exact if_pos hc

theorem words_trimStart (t : Text) : words (trimStart t) = words t := by
  induction t with
  | nil => rfl
  | cons c r ih =>
    rw [trimStart, List.dropWhile_cons]
    split
    · next hc => rw [← trimStart, ih, words_space hc]
    · rfl

/-- A word is read up to the white space behind it. -/
theorem words_word (hne : w ≠ []) (hw : ∀ c ∈ w, isSpace c = false)
    (hrest : ∀ c ∈ rest.head?, isSpace c = true) : words (w ++ rest) = w :: words rest := by
  induction w with
  | nil => exact absurd rfl hne
  | cons c w ih =>
    obtain ⟨hc, hw⟩ := List.forall_mem_cons.mp hw
    rw [List.cons_append, words.eq_def]
    dsimp only
    rw [if_neg (by simp [hc])]
    cases w with
    | nil =>
      rw [List.nil_append]
      cases rest with
      | nil => rfl
      | cons d rest =>
        cases words (d :: rest) with
        | nil => rfl
        | cons v vs => exact if_pos (hrest d rfl)
    | cons d w =>
      rw [ih (List.cons_ne_nil d w) hw]
      exact if_neg (by simp [hw d (List.mem_cons_self ..)])

theorem trimStart_space (hc : isSpace c = true) (r : Text) : trimStart (c :: r) = trimStart r :=
  List.dropWhile_cons_of_pos hc

theorem trimStart_word (hne : w ≠ []) (hw : ∀ c ∈ w, isSpace c = false) (rest : Text) :
    trimStart (w ++ rest) = w ++ rest := by
  obtain ⟨c, w, rfl⟩ := List.exists_cons_of_ne_nil hne
  rw [List.cons_append, trimStart, List.dropWhile_cons_of_neg]
  simp [hw c (List.mem_cons_self ..)]

theorem trimStart_trimStart (t : Text) : trimStart (trimStart t) = trimStart t :=
  List.dropWhile_idempotent isSpace t

theorem collapse_nil : collapse [] = [] := by rw [collapse.eq_def]

theorem collapse_space (hc : isSpace c = true) (r : Text) :
    collapse (c :: r) = ' ' :: collapse (trimStart r) := by
  rw [collapse.eq_def]
  exact if_pos hc

theorem collapse_word (hw : ∀ c ∈ w, isSpace c = false) (rest : Text) :
    collapse (w ++ rest) = w ++ collapse rest := by
  induction w with
  | nil => rfl
  | cons c w ih =>
    obtain ⟨hc, hw⟩ := List.forall_mem_cons.mp hw
    rw [List.cons_append, collapse.eq_def]
    dsimp only
    rw [if_neg (by simp [hc]), ih hw, List.cons_append]

/-- No word is empty. -/
theorem ne_nil_of_mem_words {t : Text} (h : w ∈ words t) : w ≠ [] := by
  induction t using words_induction with
  | nil => cases h
  | space c r hc ih =>
    rw [words_space hc, ← words_trimStart] at h
    exact ih h
  | word v rest hne hv hrest ih =>
    rw [words_word hne hv hrest, List.mem_cons] at h
    rcases h with rfl | h
    · exact hne
    · exact ih h

end Words

theorem join_ne_nil {sep t : Text} {ts : List Text} (h : t ≠ []) : join sep (t :: ts) ≠ [] := by
  cases ts with
  | nil => exact h
  | cons u us => simp [join_cons_cons, h]

theorem trimStart_collapse (t : Text) : trimStart (collapse t) = collapse (trimStart t) := by
  induction t using words_induction with
  | nil => rw [collapse_nil, trimStart, List.dropWhile_nil, collapse_nil]
  | space c r hc ih =>
    rw [collapse_space hc, trimStart_space rfl, ih, trimStart_trimStart, trimStart_space hc]
  | word w rest hne hw hrest ih =>
    rw [trimStart_word hne hw, collapse_word hw, trimStart_word hne hw]

/-- **A text with single spaces, and none at its ends, is made up of its words.** -/
theorem trim_collapse (t : Text) : trim (collapse t) = join [' '] (words t) := by
  rw [trim, trimStart_collapse]
  induction t using words_induction with
  | nil => rw [trimStart, List.dropWhile_nil, collapse_nil]; rfl
  | space c r hc ih =>
    rw [trimStart_space hc, words_space hc, ← words_trimStart r, ← ih, trimStart_trimStart]
  | word w rest hne hw hrest ih =>
    rw [trimStart_word hne hw, words_word hne hw hrest, collapse_word hw, trimEnd_word hw]
    cases rest with
    | nil => rw [collapse_nil]; exact List.append_nil w
    | cons c r =>
      have hc := hrest c rfl
      rw [collapse_space hc, ← trimStart_space hc, trimEnd, ih]
      -- A space stands between two words, and none behind the last one.
      cases hwords : words (c :: r) with
      | nil => exact List.append_nil w
      | cons v vs =>
        have hv : v ≠ [] := ne_nil_of_mem_words (by rw [hwords]; exact List.mem_cons_self ..)
        split
        · next hnil => exact absurd hnil (join_ne_nil hv)
        · rw [join_cons_cons, List.append_assoc, List.singleton_append]

/-- Where white space is collapsed, the text has one line. -/
theorem newline_notMem_collapse (t : Text) : '\n' ∉ collapse t := by
  fun_induction collapse t with
  | case1 => nofun
  | case2 c r hc ih => simpa using ih
  | case3 c r hc ih =>
    rw [List.mem_cons, not_or]
    refine ⟨?_, ih⟩
    rintro rfl
    exact hc rfl

end Text

/-! ### Literals -/

namespace Macro

/-- The words of an argument stand on one line. -/
theorem newline_notMem_join (t : Text) : '\n' ∉ Text.join [' '] (Text.words t) := by
  rw [← Text.trim_collapse]
  intro hmem
  exact Text.newline_notMem_collapse t
    (((trimEnd_sublist _).trans (List.dropWhile_suffix _).sublist).mem hmem)

/-- **An argument becomes one literal that stands for it.**  Whatever stands behind the literal,
the scan of running text leaves it at its last quote, and the reader of string literals takes all
of it as one token.  What stands between its quotes is, without the escapes, the argument with a
single space for each run of white space and none at its ends. -/
theorem render_quoted (raw expanded : List Text) (i : Fin raw.length) :
    ∃ content : Text, Segment.render raw expanded (.quoted i) = '"' :: content ++ ['"'] ∧
      (∀ rest, Quoted.split (content ++ '"' :: rest) = (content ++ ['"'], rest)) ∧
      (∀ rest, Token.string? ('"' :: content ++ '"' :: rest) =
        some (.string (String.ofList content), '"' :: content ++ ['"'])) ∧
      Quoted.unescape content = Text.trim (Text.collapse raw[i]) := by
  have hescaped := Quoted.isEscaped_escape (newline_notMem_join raw[i])
  refine ⟨Quoted.escape (Text.join [' '] (Text.words raw[i])), ?_, ?_, ?_, ?_⟩
  · rw [Segment.render, quote, List.getD_eq_getElem _ _ i.isLt]
    rfl
  · exact Quoted.split_of_isEscaped hescaped
  · intro rest
    rw [List.cons_append, Token.string?, Token.untilQuote?_of_isEscaped hescaped]
    rfl
  · rw [Quoted.unescape_escape, Text.trim_collapse]

end Macro

end PixelWrap
