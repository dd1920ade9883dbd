import Mathlib.Data.List.TakeWhile
import Mathlib.Tactic.Common
import PixelWrap.Proofs.Joins
import PixelWrap.Proofs.Pieces
import PixelWrap.Proofs.Spelling

/-!
# Words as a whole

A word stands in a text as a whole if no character of a name is next to it.  It then does so
in every text that the text was cut out of or made from, as long as that happened between
words: a region starts with a line and ends with one, a comment is no part of a word, and a
piece that is kept does not end within a word unless the text does.

## Main definitions

* `Text.WordAt`: a name stands at an offset as a whole word.

## Main results

* `Text.WordAt.cons`, `Text.WordAt.of_cons`: a word behind one more character.
* `Comment.wordAt_of_blank`: a word between comments is a word of the text.
* `Item.exists_of_ofText_eq`: a region is made up of whole lines.
* `Macro.Scanned.endsInName_front`, `Macro.Scanned.endsInName_kept`: a text is cut into pieces
  between words.
* `Macro.Scanned.wordAt_of_kept`: **a word of what is put out is a word of the text**, if
  it starts with a character that is kept.
-/

namespace PixelWrap

open Macro (startsInName endsInName)

/-! ### Characters next to a word -/

theorem Text.Ended.endsInName {t : Text} (h : Text.Ended t) : endsInName t = false := by
  rw [Macro.endsInName]
  cases hc : t.getLast? with
  | none => rfl
  | some c =>
    rw [h c hc]
    rfl

/-- A run of characters of names stops where the text in front or the text behind does. -/
theorem takeWhile_append_of_border {s : Text} (t : Text) (hs : s ≠ [])
    (h : endsInName s = false ∨ startsInName t = false) :
    (s ++ t).takeWhile isNameChar = s.takeWhile isNameChar := by
  by_cases hall : ∀ c ∈ s, isNameChar c = true
  · rw [List.takeWhile_append_of_pos hall, List.takeWhile_eq_self_iff.mpr hall]
    rcases h with h | h
    · rw [endsInName, List.getLast?_eq_some_getLast hs] at h
      rw [Option.any_some, hall _ (List.getLast_mem hs)] at h
      cases h
    · cases t with
      | nil => rw [List.takeWhile_nil, List.append_nil]
      | cons c t =>
        rw [Macro.startsInName_cons] at h
        rw [List.takeWhile_cons_of_neg (by simp [h]), List.append_nil]
  · rw [List.takeWhile_append]
    split
    · next hlen =>
      have hself := (List.takeWhile_prefix (l := s) isNameChar).eq_of_length hlen
      exact absurd (List.takeWhile_eq_self_iff.mp hself) hall
    · rfl

theorem Text.isNameChar_of_isName {w : Text} (h : Text.isName w = true) :
    ∀ c ∈ w, isNameChar c = true := by
  cases w with
  | nil => cases h
  | cons c r =>
    obtain ⟨hc, hr⟩ := Condition.isName_cons_iff.mp h
    exact List.forall_mem_cons.mpr ⟨isNameChar_of_isNameStart hc, hr⟩

theorem Text.endsInName_of_isName {w : Text} (h : Text.isName w = true) (s : Text) :
    Macro.endsInName (s ++ w) = true := by
  have hne : w ≠ [] := by
    rintro rfl
    cases h
  rw [Macro.endsInName_append hne, Macro.endsInName, List.getLast?_eq_some_getLast hne]
  exact Text.isNameChar_of_isName h _ (List.getLast_mem hne)

/-- The name stands in the text at the offset, and no character of a name is next to it. -/
def Text.WordAt (w : Text) (offset : Nat) (t : Text) : Prop :=
  ∃ before after, t = before ++ w ++ after ∧ Text.size before = offset ∧
    Text.isName w = true ∧ endsInName before = false ∧ startsInName after = false

namespace Text.WordAt

variable {w t : Text} {n : Nat}

theorem isName (h : WordAt w n t) : Text.isName w = true := by
  obtain ⟨_, _, -, -, hname, -, -⟩ := h
  exact hname

/-- A word stays one behind another character, unless that is one of a name right in front of
it. -/
theorem cons {c : Char} (h : WordAt w n t) (hc : n = 0 → isNameChar c = false) :
    WordAt w (c.utf8Size + n) (c :: t) := by
  obtain ⟨before, after, rfl, rfl, hname, hb, ha⟩ := h
  refine ⟨c :: before, after, rfl, Text.size_cons .., hname, ?_, ha⟩
  show endsInName ([c] ++ before) = false
  refine Macro.endsInName_append_of (fun hnil => ?_) hb
  exact hc (by rw [hnil, Text.size_nil])

theorem exists_of_zero (h : WordAt w 0 t) :
    ∃ after, t = w ++ after ∧ startsInName after = false := by
  obtain ⟨before, after, rfl, hsize, -, -, ha⟩ := h
  obtain rfl : before = [] := Text.eq_nil_of_size hsize
  exact ⟨after, rfl, ha⟩

theorem exists_cons_of_zero (h : WordAt w 0 t) : ∃ c r, t = c :: r ∧ isNameChar c = true := by
  obtain ⟨after, rfl, -⟩ := h.exists_of_zero
  have hname := h.isName
  cases w with
  | nil => cases hname
  | cons c w => exact ⟨c, w ++ after, rfl, Text.isNameChar_of_isName hname c (by simp)⟩

/-- A word starts with the first character or stands behind it. -/
theorem of_cons {c : Char} (h : WordAt w n (c :: t)) :
    n = 0 ∨ ∃ k, n = c.utf8Size + k ∧ WordAt w k t ∧ (k = 0 → isNameChar c = false) := by
  obtain ⟨before, after, heq, rfl, hname, hb, ha⟩ := h
  cases before with
  | nil => exact .inl rfl
  | cons d before =>
    obtain ⟨rfl, rfl⟩ := List.cons.inj heq
    have hb' : endsInName ([c] ++ before) = false := hb
    refine .inr ⟨Text.size before, Text.size_cons .., ⟨before, after, rfl, rfl, hname,
      Macro.endsInName_of_append hb', ha⟩, fun hzero => ?_⟩
    obtain rfl : before = [] := Text.eq_nil_of_size (by omega)
    exact hb

/-- A word stands behind a character that is part of no name. -/
theorem of_cons_of_eq_false {c : Char} (h : WordAt w n (c :: t)) (hc : isNameChar c = false) :
    ∃ k, n = c.utf8Size + k ∧ WordAt w k t := by
  rcases h.of_cons with rfl | ⟨k, rfl, hk, -⟩
  · obtain ⟨d, r, heq, hd⟩ := h.exists_cons_of_zero
    obtain ⟨rfl, -⟩ := List.cons.inj heq
    rw [hc] at hd
    cases hd
  · exact ⟨k, rfl, hk⟩

theorem of_append {u : Text} (h : WordAt w n (u ++ t)) (hu : ∀ c ∈ u, isNameChar c = false) :
    ∃ k, n = Text.size u + k ∧ WordAt w k t := by
  induction u generalizing n with
  | nil => exact ⟨n, (Nat.zero_add n).symm, h⟩
  | cons c u ih =>
    obtain ⟨hc, hu⟩ := List.forall_mem_cons.mp hu
    obtain ⟨j, rfl, hj⟩ := of_cons_of_eq_false h hc
    obtain ⟨k, rfl, hk⟩ := ih hj hu
    exact ⟨k, by rw [Text.size_cons, Nat.add_assoc], hk⟩

end Text.WordAt

/-! ### Words between comments -/

namespace Comment

theorem startsInName_blankChar_append (c : Char) (t : Text) :
    startsInName (blankChar c ++ t) = false := by
  rw [blankChar]
  split
  · next hc =>
    simp only [Bool.or_eq_true, beq_iff_eq] at hc
    rcases hc with rfl | rfl <;> rfl
  · obtain ⟨n, hn⟩ : ∃ n, c.utf8Size = n + 1 := ⟨c.utf8Size - 1, by have := c.utf8Size_pos; omega⟩
    rw [hn]
    rfl

theorem ne_of_isNameChar {c d : Char} (hc : isNameChar c = true) (hd : isNameChar d = false) :
    c ≠ d := by
  rintro rfl
  rw [hc] at hd
  cases hd

/-- A character of a name is put out outside of comments. -/
theorem blankFrom_cons_of_isNameChar {m : Mode} (hm : m ≠ .line ∧ m ≠ .block) {c : Char}
    (hc : isNameChar c = true) (r : Text) : blankFrom m (c :: r) = c :: blankFrom m r := by
  have hslash : c ≠ '/' := ne_of_isNameChar hc rfl
  have hbackslash : c ≠ '\\' := ne_of_isNameChar hc rfl
  have hquote : c ≠ '"' := ne_of_isNameChar hc rfl
  have hfeed : c ≠ '\n' := ne_of_isNameChar hc rfl
  cases m with
  | code => simp [blankFrom, hslash, hquote]
  | line => exact absurd rfl hm.1
  | block => exact absurd rfl hm.2
  | quoted => simp [blankFrom, hbackslash, hquote, hfeed]

/-- A character of a name that is put out stands in the text, and outside of comments. -/
theorem exists_of_blankFrom_eq_cons {m : Mode} {t s : Text} {c : Char}
    (h : blankFrom m t = c :: s) (hc : isNameChar c = true) :
    (m ≠ .line ∧ m ≠ .block) ∧ ∃ r, t = c :: r ∧ s = blankFrom m r := by
  have hcomment : ∀ d r, blankChar d ++ r ≠ c :: s := by
    intro d r heq
    have hstart := startsInName_blankChar_append d r
    rw [heq, Macro.startsInName_cons, hc] at hstart
    cases hstart
  -- What is put out first is the character, unless a comment or an escape starts here.
  have hfirst : (m ≠ .line ∧ m ≠ .block) ∧ ∃ r, t = c :: r := by
    rw [blankFrom.eq_def] at h
    split at h
    · cases h
    · cases h; cases hc
    · cases h; cases hc
    · cases h; exact ⟨⟨nofun, nofun⟩, _, rfl⟩
    · exact absurd h (hcomment _ _)
    · cases h; cases hc
    · exact absurd h (hcomment _ _)
    · cases h; cases hc
    · cases h; exact ⟨⟨nofun, nofun⟩, _, rfl⟩
  obtain ⟨hm, r, rfl⟩ := hfirst
  rw [blankFrom_cons_of_isNameChar hm hc] at h
  exact ⟨hm, r, rfl, (List.cons.inj h).2.symm⟩

/-- The word that the text without comments starts with is the word that the text starts
with. -/
theorem exists_of_blankFrom_eq_append {m : Mode} {t w after : Text} (hm : m ≠ .line ∧ m ≠ .block)
    (h : blankFrom m t = w ++ after) (hw : ∀ c ∈ w, isNameChar c = true)
    (ha : startsInName after = false) :
    ∃ after', t = w ++ after' ∧ startsInName after' = false := by
  induction w generalizing t with
  | nil =>
    refine ⟨t, rfl, ?_⟩
    cases t with
    | nil => rfl
    | cons c r =>
      -- A character of a name would have been put out.
      rw [Macro.startsInName_cons, Bool.eq_false_iff]
      intro hc
      rw [blankFrom_cons_of_isNameChar hm hc, List.nil_append] at h
      rw [← h, Macro.startsInName_cons, hc] at ha
      cases ha
  | cons c w ih =>
    obtain ⟨-, r, rfl, hs⟩ := exists_of_blankFrom_eq_cons h (hw c (List.mem_cons_self ..))
    obtain ⟨after', rfl, ha'⟩ := ih hs.symm fun d hd => hw d (List.mem_cons_of_mem _ hd)
    exact ⟨after', rfl, ha'⟩

theorem isNameChar_of_mem_blankChar {c d : Char} (h : d ∈ blankChar c) : isNameChar d = false := by
  rw [Bool.eq_false_iff]
  intro hd
  have hblank := isBlank_of_mem_blankChar h
  rw [isBlank_of_isNameChar hd] at hblank
  cases hblank

section WordAt

variable {m : Mode} {c : Char} {w r : Text} {n : Nat}

/-- A character is put out as it is, and what follows is no comment that goes on. -/
theorem wordAt_cons_of_blankFrom (hm : m ≠ .line ∧ m ≠ .block)
    (ih : ∀ {n}, Text.WordAt w n (blankFrom m r) → Text.WordAt w n r)
    (h : Text.WordAt w n (c :: blankFrom m r)) : Text.WordAt w n (c :: r) := by
  rcases h.of_cons with rfl | ⟨k, rfl, hk, hc⟩
  · obtain ⟨after, heq, ha⟩ := h.exists_of_zero
    have hname := h.isName
    cases w with
    | nil => cases hname
    | cons d w =>
      obtain ⟨rfl, hrest⟩ := List.cons.inj heq
      have hw := (List.forall_mem_cons.mp (Text.isNameChar_of_isName hname)).2
      obtain ⟨after', rfl, ha'⟩ := exists_of_blankFrom_eq_append hm hrest hw ha
      exact ⟨[], after', rfl, rfl, hname, rfl, ha'⟩
  · exact (ih hk).cons hc

/-- A character of a comment is overwritten, and the comment goes on unless the line ends. -/
theorem wordAt_cons_of_blankChar (hm : m ≠ .line ∧ m ≠ .block → c = '\n')
    (ih : ∀ {n}, Text.WordAt w n (blankFrom m r) → Text.WordAt w n r)
    (h : Text.WordAt w n (blankChar c ++ blankFrom m r)) : Text.WordAt w n (c :: r) := by
  obtain ⟨k, rfl, hk⟩ := h.of_append fun _ => isNameChar_of_mem_blankChar
  rw [size_blankChar]
  refine (ih hk).cons ?_
  -- A comment that goes on puts out no word.
  rintro rfl
  obtain ⟨d, s, hs, hd⟩ := hk.exists_cons_of_zero
  obtain ⟨hmode, -⟩ := exists_of_blankFrom_eq_cons hs hd
  rw [hm hmode]
  rfl

/-- The two characters that start or end a comment are overwritten. -/
theorem wordAt_mark {c d : Char} (hc : c.utf8Size = 1 ∧ isNameChar c = false)
    (hd : d.utf8Size = 1 ∧ isNameChar d = false)
    (ih : ∀ {n}, Text.WordAt w n (blankFrom m r) → Text.WordAt w n r)
    (h : Text.WordAt w n (' ' :: ' ' :: blankFrom m r)) : Text.WordAt w n (c :: d :: r) := by
  obtain ⟨j, rfl, hj⟩ := h.of_cons_of_eq_false rfl
  obtain ⟨k, rfl, hk⟩ := hj.of_cons_of_eq_false rfl
  have hword := ((ih hk).cons fun _ => hd.2).cons fun _ => hc.2
  rw [hc.1, hd.1] at hword
  exact hword

/-- **A word between comments is a word of the text**, at the same offset. -/
theorem wordAt_of_blankFrom {t : Text} (h : Text.WordAt w n (blankFrom m t)) :
    Text.WordAt w n t := by
  fun_induction blankFrom m t generalizing n with
  | case1 => exact h
  | case2 r ih => exact wordAt_mark ⟨rfl, rfl⟩ ⟨rfl, rfl⟩ ih h
  | case3 r ih => exact wordAt_mark ⟨rfl, rfl⟩ ⟨rfl, rfl⟩ ih h
  | case4 c r _ _ ih => exact wordAt_cons_of_blankFrom (by split <;> simp) ih h
  | case5 c r ih =>
    refine wordAt_cons_of_blankChar (fun hm => ?_) ih h
    by_contra hc
    simp [hc] at hm
  | case6 r ih => exact wordAt_mark ⟨rfl, rfl⟩ ⟨rfl, rfl⟩ ih h
  | case7 c r _ ih => exact wordAt_cons_of_blankChar (fun hm => absurd rfl hm.2) ih h
  | case8 c r ih =>
    -- The escape stands in front, and the character behind it is put out like any other.
    obtain ⟨k, rfl, hk⟩ := h.of_cons_of_eq_false rfl
    exact (wordAt_cons_of_blankFrom (by simp) ih hk).cons fun _ => rfl
  | case9 c r _ ih => exact wordAt_cons_of_blankFrom (by split <;> simp) ih h

end WordAt

/-- **A word of a text without its comments is a word of the text.** -/
theorem wordAt_of_blank {w t : Text} {offset : Nat} (h : Text.WordAt w offset (blank t)) :
    Text.WordAt w offset t :=
  wordAt_of_blankFrom h

end Comment

/-! ### Words of regions -/

namespace Text

theorem ne_nil_of_mem_lines {t l : Text} (h : l ∈ lines t) : l ≠ [] := by
  fun_induction lines t with
  | case1 => cases h
  | case2 c r _ ih =>
    rcases List.mem_cons.mp h with rfl | h
    · exact List.cons_ne_nil _ _
    · exact ih h
  | case3 c r _ hr ih =>
    rw [List.mem_singleton.mp h]
    exact List.cons_ne_nil _ _
  | case4 c r _ l' ls hr ih =>
    rcases List.mem_cons.mp h with rfl | h
    · exact List.cons_ne_nil _ _
    · exact ih (hr ▸ List.mem_cons_of_mem _ h)

/-- The lines in front of another line are ended. -/
theorem ended_of_lines_eq {t : Text} {a b : List Text} (h : lines t = a ++ b) (hb : b ≠ []) :
    Ended a.flatten := by
  have hempty : Ended [] := nofun
  fun_induction lines t generalizing a with
  | case1 => exact absurd (List.append_eq_nil_iff.mp h.symm).2 hb
  | case2 c r hc ih =>
    cases a with
    | nil => exact hempty
    | cons l a =>
      obtain ⟨rfl, hr⟩ := List.cons.inj h
      have hline : Ended [c] := by
        rintro d ⟨⟩
        exact eq_of_beq hc
      exact hline.append (ih hr)
  | case3 c r hc hr ih =>
    cases a with
    | nil => exact hempty
    | cons l a => exact absurd (List.append_eq_nil_iff.mp (List.cons.inj h).2.symm).2 hb
  | case4 c r hc l ls hr ih =>
    cases a with
    | nil => exact hempty
    | cons l' a =>
      obtain ⟨rfl, rfl⟩ := List.cons.inj h
      have hrest : Ended (l :: a).flatten := ih hr
      have hne : (l :: a).flatten ≠ [] := by
        have hl : l ≠ [] := ne_nil_of_mem_lines (t := r) (hr ▸ List.mem_cons_self ..)
        rw [List.flatten_cons]
        exact List.append_ne_nil_of_left_ne_nil hl _
      intro d hd
      refine hrest d ?_
      obtain ⟨x, y, hxy⟩ := List.exists_cons_of_ne_nil hne
      rw [List.flatten_cons, List.cons_append, ← List.flatten_cons, hxy,
        List.getLast?_cons_cons] at hd
      rw [hxy]
      exact hd

end Text

namespace Item

/-- **A region is made up of whole lines**, and if another item follows, so do other lines. -/
theorem exists_of_ofLines_eq {offset o : Nat} {ls : List Text} {x : Text} {a b : List Item}
    (h : ofLines offset ls = a ++ .region o x :: b) :
    ∃ ls₁ ls₂ ls₃, ls = ls₁ ++ (ls₂ ++ ls₃) ∧ ls₂ ≠ [] ∧ x = ls₂.flatten ∧
      o = offset + Text.size ls₁.flatten ∧ (b ≠ [] → ls₃ ≠ []) := by
  -- The lines of the first item come in front of what the other items give.
  have further : ∀ {offset : Nat} {l : Text} {ls more : List Text}, more <+: ls →
      (∃ ls₁ ls₂ ls₃, ls.drop more.length = ls₁ ++ (ls₂ ++ ls₃) ∧ ls₂ ≠ [] ∧ x = ls₂.flatten ∧
        o = offset + Text.size (l :: more).flatten + Text.size ls₁.flatten ∧
        (b ≠ [] → ls₃ ≠ [])) →
      ∃ ls₁ ls₂ ls₃, l :: ls = ls₁ ++ (ls₂ ++ ls₃) ∧ ls₂ ≠ [] ∧ x = ls₂.flatten ∧
        o = offset + Text.size ls₁.flatten ∧ (b ≠ [] → ls₃ ≠ []) := by
    rintro offset l ls more ⟨rest, rfl⟩ ⟨ls₁, ls₂, ls₃, hdrop, hne, hx, ho, hb⟩
    rw [List.drop_left] at hdrop
    subst hdrop
    refine ⟨l :: more ++ ls₁, ls₂, ls₃, by simp, hne, hx, ?_, hb⟩
    rw [List.flatten_append, Text.size_append, ho, Nat.add_assoc]
  fun_induction ofLines offset ls generalizing a with
  | case1 => exact absurd h.symm (by simp)
  | case2 offset l ls hl more =>
    rename_i ih
    cases a with
    | nil => cases (List.cons.inj h).1
    | cons i a => exact further (continuation_isPrefix l ls) (ih (List.cons.inj h).2)
  | case3 offset l ls hl more =>
    rename_i ih
    have hmore : more <+: ls := List.takeWhile_prefix _
    cases a with
    | nil =>
      obtain ⟨hregion, hb⟩ := List.cons.inj h
      cases hregion
      refine ⟨[], l :: more, ls.drop more.length, ?_, List.cons_ne_nil _ _, rfl, rfl, ?_⟩
      · rw [List.nil_append, List.cons_append, List.prefix_iff_eq_append.mp hmore]
      · intro hne hnil
        rw [hnil, ofLines] at hb
        exact hne hb.symm
    | cons i a => exact further hmore (ih (List.cons.inj h).2)

/-- A region of a text starts with a line, and it ends with a line unless the text ends
there. -/
theorem exists_of_ofText_eq {o : Nat} {t x : Text} {a b : List Item}
    (h : ofText t = a ++ .region o x :: b) :
    ∃ u v, t = u ++ (x ++ v) ∧ x ≠ [] ∧ Text.size u = o ∧ Text.Ended u ∧
      (v ≠ [] → Text.Ended x) ∧ (b ≠ [] → Text.Ended x) := by
  obtain ⟨ls₁, ls₂, ls₃, hls, hne, rfl, rfl, hb⟩ := exists_of_ofLines_eq h
  have hended : ls₃ ≠ [] → Text.Ended ls₂.flatten := by
    intro hne₃
    rw [← List.append_assoc] at hls
    have hall := Text.ended_of_lines_eq hls hne₃
    rw [List.flatten_append] at hall
    exact hall.of_append
  refine ⟨ls₁.flatten, ls₃.flatten, ?_, ?_, ?_, ?_, ?_, fun hbne => hended (hb hbne)⟩
  · rw [← List.flatten_append, ← List.flatten_append, ← hls, Text.flatten_lines]
  · obtain ⟨l, hl⟩ := List.exists_mem_of_ne_nil _ hne
    have hmem : l ∈ Text.lines t := by
      rw [hls]
      exact List.mem_append_right _ (List.mem_append_left _ hl)
    intro hnil
    exact Text.ne_nil_of_mem_lines hmem (List.flatten_eq_nil_iff.mp hnil l hl)
  · rw [Nat.zero_add]
  · exact Text.ended_of_lines_eq hls (List.append_ne_nil_of_left_ne_nil hne _)
  · intro hv
    refine hended ?_
    rintro rfl
    exact hv rfl

/-- **A word of a region is a word of the text.** -/
theorem wordAt_of_region {o n : Nat} {t x w : Text} (h : .region o x ∈ ofText t)
    (hw : Text.WordAt w n x) : Text.WordAt w (o + n) t := by
  obtain ⟨a, b, hab⟩ := List.append_of_mem h
  obtain ⟨u, v, rfl, -, rfl, hu, hv, -⟩ := exists_of_ofText_eq hab
  obtain ⟨before, after, rfl, rfl, hname, hb, ha⟩ := hw
  refine ⟨u ++ before, after ++ v, by simp, by rw [Text.size_append], hname, ?_, ?_⟩
  · exact Macro.endsInName_append_of (fun _ => hu.endsInName) hb
  · refine Macro.startsInName_append_of ha fun hnil => ?_
    -- If the region ends with the word, it does not end with a line.
    subst hnil
    by_cases hv' : v = []
    · rw [hv']
      rfl
    · have hend := (hv hv').endsInName
      rw [List.append_nil] at hend
      rw [Text.endsInName_of_isName hname] at hend
      cases hend

end Item

/-! ### Words of pieces -/

namespace Macro

variable {t : Table} {disabled : List String} {text : Text} {ps : List Piece}

/-- A piece that starts in a name has no name right in front of it. -/
theorem Scanned.endsInName_front (h : Scanned t disabled text ps) {a b : List Piece} {q : Piece}
    (hps : ps = a ++ q :: b) (hq : startsInName q.source = true) :
    endsInName (sources a) = false := by
  -- What is put in front of the pieces of a text matters where the text starts with the piece.
  have further : ∀ {s rest : Text} {a : List Piece}, Scanned t disabled rest (a ++ q :: b) →
      (startsInName rest = true → endsInName s = false) → endsInName (sources a) = false →
      endsInName (s ++ sources a) = false := by
    intro s rest a hrest hs ha
    refine endsInName_append_of (fun hnil => hs ?_) ha
    rw [← hrest.source_eq, sources_append, hnil, List.nil_append, sources_cons]
    obtain ⟨c, r, hc⟩ : ∃ c r, q.source = c :: r := by
      cases hsource : q.source with
      | nil => rw [hsource] at hq; cases hq
      | cons c r => exact ⟨c, r, rfl⟩
    rw [hc] at hq ⊢
    exact hq
  have kept : ∀ {s rest : Text} {ps a : List Piece}, Scanned t disabled rest ps →
      (startsInName rest = true → endsInName s = false) →
      (∀ {a : List Piece}, ps = a ++ q :: b → endsInName (sources a) = false) →
      keep s ps = a ++ q :: b → endsInName (sources a) = false := by
    intro s rest ps a hrest hs ih hkeep
    rcases exists_of_keep_eq_append hkeep with ⟨rfl, -⟩ | ⟨a', rfl, ha⟩
    · rfl
    · rw [ha]
      exact further hrest hs (ih rfl)
  induction h generalizing a with
  | nil => cases a <;> cases hps
  | literal hr ih => exact kept hr endsInName_literal ih hps
  | @word c r ps _ hr ih =>
    refine kept hr (fun hstart => ?_) ih hps
    rw [startsInName_dropWhile] at hstart
    cases hstart
  | @use c r ps m o _ _ hi hr ih =>
    cases a with
    | nil => rfl
    | cons p a =>
      obtain ⟨rfl, rfl⟩ := List.cons.inj hps
      exact further hr (endsInName_use (closes_of_invoke hi)) (ih rfl)
  | @mark c r ps hc hr ih =>
    exact kept hr (fun _ => by rw [← List.nil_append [c], endsInName_concat, hc]) ih hps

/-- Text that is kept is one piece as far as it goes. -/
theorem Scanned.ne_kept_kept (h : Scanned t disabled text ps) {a b : List Piece} {s s' : Text} :
    ps ≠ a ++ .kept s :: .kept s' :: b := by
  have kept : ∀ {r s : Text} {ps a : List Piece},
      (∀ {a : List Piece} {s : Text}, ps ≠ a ++ .kept s :: .kept s' :: b) →
      keep r ps ≠ a ++ .kept s :: .kept s' :: b := by
    intro r s ps a ih hkeep
    rcases exists_of_keep_eq_append hkeep with ⟨rfl, -⟩ | ⟨a', hps, -⟩
    · unfold keep at hkeep
      split at hkeep
      · next r' ps =>
        obtain ⟨-, rfl⟩ := List.cons.inj hkeep
        exact ih (a := []) rfl
      · next hfirst => exact hfirst _ _ (List.cons.inj hkeep).2
    · exact ih hps
  induction h generalizing a s with
  | nil => cases a <;> nofun
  | literal _ ih => exact kept ih
  | word _ _ ih => exact kept ih
  | use _ _ _ _ _ _ ih =>
    intro hps
    cases a with
    | nil => cases (List.cons.inj hps).1
    | cons p a => exact ih (List.cons.inj hps).2
  | mark _ _ ih => exact kept ih

/-- A piece that is kept in front of another one does not end in a name. -/
theorem Scanned.endsInName_kept (h : Scanned t disabled text ps) {a b : List Piece} {s : Text}
    (hps : ps = a ++ .kept s :: b) (hb : b ≠ []) : endsInName s = false := by
  obtain ⟨q, b, rfl⟩ := List.exists_cons_of_ne_nil hb
  cases q with
  | kept s' => exact absurd hps h.ne_kept_kept
  | replaced x o =>
    have hsplit : ps = (a ++ [.kept s]) ++ .replaced x o :: b := by
      rw [hps, List.append_assoc]
      rfl
    obtain ⟨⟨word, after, -, hname⟩, -⟩ := h.namesReplaced hsplit
    have hleft := hname.left
    rw [sources_append] at hleft
    have hlast := endsInName_of_append hleft
    rwa [sources_cons, sources_nil, List.append_nil] at hlast

/-- **A word of what is put out is a word of the text**, if it starts with a character that is
kept.  It ends where the text of the piece does, if not before. -/
theorem Scanned.wordAt_of_kept {a b : List Piece} {u v : Text} {c : Char}
    (h : Scanned t disabled text (a ++ .kept (u ++ c :: v) :: b)) (hc : isNameStart c = true)
    (hu : endsInName u = false) :
    Text.WordAt ((c :: v).takeWhile isNameChar) (Text.size (sources a) + Text.size u) text ∧
      (c :: (v ++ flatten b)).takeWhile isNameChar = (c :: v).takeWhile isNameChar := by
  have hname := isNameChar_of_isNameStart hc
  have hend : b ≠ [] → endsInName (c :: v) = false := fun hb =>
    endsInName_of_append (h.endsInName_kept rfl hb)
  constructor
  · refine ⟨sources a ++ u, (c :: v).dropWhile isNameChar ++ sources b, ?_, ?_, ?_, ?_, ?_⟩
    · rw [← h.source_eq, sources_append, sources_cons, Piece.source]
      conv_lhs => rw [← List.takeWhile_append_dropWhile (p := isNameChar) (l := c :: v)]
      simp only [List.append_assoc]
    · rw [Text.size_append]
    · rw [List.takeWhile_cons_of_pos hname]
      exact Condition.isName_cons_iff.mpr ⟨hc, fun d hd => List.mem_takeWhile_imp hd⟩
    · refine endsInName_append_of (fun hnil => h.endsInName_front rfl ?_) hu
      rw [hnil]
      exact hname
    · refine startsInName_append_of (startsInName_dropWhile _) fun hnil => ?_
      -- The piece ends with the word, so that nothing follows.
      by_cases hb : b = []
      · rw [hb]
        rfl
      · have hall := List.dropWhile_eq_nil_iff.mp hnil
        have hlast := hend hb
        rw [endsInName, List.getLast?_eq_some_getLast (List.cons_ne_nil c v), Option.any_some,
          hall _ (List.getLast_mem _)] at hlast
        cases hlast
  · rw [← List.cons_append]
    refine takeWhile_append_of_border _ (List.cons_ne_nil c v) ?_
    by_cases hb : b = []
    · rw [hb]
      exact .inr rfl
    · exact .inl (hend hb)

/-- The source of a piece that is replaced starts with a word, which names the macro. -/
theorem Scanned.exists_wordAt_of_replaced {a b : List Piece} {source output : Text}
    (h : Scanned t disabled text (a ++ .replaced source output :: b)) :
    ∃ word, Text.WordAt word (Text.size (sources a)) text ∧ word <+: source ++ sources b ∧
      t.isDefined (String.ofList word) = true := by
  obtain ⟨⟨word, after, hword, hname⟩, -⟩ := h.namesReplaced rfl
  obtain ⟨hisName, hdef⟩ := isDefined_of_enabled? hname.enabled
  have htext : text = sources a ++ word ++ after := by
    rw [← h.source_eq, sources_append, sources_cons, Piece.source, hword, List.append_assoc]
  exact ⟨word, ⟨sources a, after, htext, rfl, hisName, hname.left, hname.right⟩,
    ⟨after, hword.symm⟩, hdef⟩

/-- A use of a macro ends with a name or with a parenthesis and not with a line. -/
theorem not_ended_of_closes {c : Char} {r after : Text} (hc : isNameChar c = true)
    (h : Closes (r.dropWhile isNameChar) after) :
    ¬Text.Ended ((c :: r).take (r.length + 1 - after.length)) := by
  intro hended
  rcases source_of_closes c h with ⟨-, hs⟩ | ⟨s, hs⟩
  · rw [hs] at hended
    have hword : ∀ d ∈ c :: r.takeWhile isNameChar, isNameChar d = true :=
      List.forall_mem_cons.mpr ⟨hc, fun d hd => List.mem_takeWhile_imp hd⟩
    have hlast := List.getLast?_eq_some_getLast (List.cons_ne_nil c (r.takeWhile isNameChar))
    have hfeed := hword _ (List.mem_of_getLast? hlast)
    rw [hended _ hlast] at hfeed
    cases hfeed
  · rw [hs] at hended
    have hfeed := hended ')' (by rw [List.getLast?_concat]; rfl)
    cases hfeed

/-- What is put out for a text that ends with a line does not end in a name. -/
theorem Scanned.endsInName_flatten (h : Scanned t disabled text ps) (hne : text ≠ [])
    (hended : Text.Ended text) : flatten ps ≠ [] ∧ endsInName (flatten ps) = false := by
  -- The text ends with what is read first, or else with what is read after that.
  have further : ∀ {s s' rest : Text} {ps : List Piece}, Scanned t disabled rest ps →
      Text.Ended (s ++ rest) → (rest = [] → s' ≠ [] ∧ endsInName s' = false) →
      (rest ≠ [] → Text.Ended rest → flatten ps ≠ [] ∧ endsInName (flatten ps) = false) →
      s' ++ flatten ps ≠ [] ∧ endsInName (s' ++ flatten ps) = false := by
    intro s s' rest ps hrest hended hs ih
    by_cases hnil : rest = []
    · subst hnil
      cases hrest
      rw [flatten, List.flatMap_nil, List.append_nil]
      exact hs rfl
    · obtain ⟨hps, hend⟩ := ih hnil hended.of_append
      exact ⟨List.append_ne_nil_of_right_ne_nil _ hps, by rwa [endsInName_append hps]⟩
  have hkept : ∀ {s rest : Text}, s ≠ [] → Text.Ended (s ++ rest) → rest = [] →
      s ≠ [] ∧ endsInName s = false := by
    rintro s rest hs hended rfl
    rw [List.append_nil] at hended
    exact ⟨hs, hended.endsInName⟩
  induction h with
  | nil => exact absurd rfl hne
  | @literal r ps hr ih =>
    have htext : '"' :: r = ('"' :: (Quoted.split r).1) ++ (Quoted.split r).2 := by
      rw [List.cons_append, Quoted.split_append]
    rw [htext] at hended
    rw [flatten_keep]
    exact further hr hended (hkept (List.cons_ne_nil _ _) hended) ih
  | @word c r ps _ hr ih =>
    have htext : c :: r = (c :: r.takeWhile isNameChar) ++ r.dropWhile isNameChar := by
      rw [List.cons_append, List.takeWhile_append_dropWhile]
    rw [htext] at hended
    rw [flatten_keep]
    exact further hr hended (hkept (List.cons_ne_nil _ _) hended) ih
  | @use c r ps m o hc _ hi hr ih =>
    have htext := take_append_after (c := c) (o.val.isSuffix.trans (List.dropWhile_suffix _))
    rw [← htext] at hended
    refine further hr hended (fun hnil => ?_) ih
    rw [hnil, List.append_nil, ← hnil] at hended
    exact absurd hended (not_ended_of_closes hc (closes_of_invoke hi))
  | @mark c r ps _ hr ih =>
    rw [flatten_keep]
    exact further hr (s := [c]) hended (hkept (List.cons_ne_nil _ _) hended) ih

/-- Each character that is put out belongs to a piece. -/
theorem exists_of_flatten_eq {x y : Text} {c : Char} (h : flatten ps = x ++ c :: y) :
    ∃ a q b u v, ps = a ++ q :: b ∧ q.output = u ++ c :: v ∧ x = flatten a ++ u ∧
      y = v ++ flatten b := by
  induction ps generalizing x with
  | nil => cases x <;> cases h
  | cons p ps ih =>
    have further : ∀ z, x = p.output ++ z → flatten ps = z ++ c :: y →
        ∃ a q b u v, p :: ps = a ++ q :: b ∧ q.output = u ++ c :: v ∧ x = flatten a ++ u ∧
          y = v ++ flatten b := by
      rintro z rfl hz
      obtain ⟨a, q, b, u, v, rfl, hq, rfl, rfl⟩ := ih hz
      exact ⟨p :: a, q, b, u, v, rfl, hq, (List.append_assoc ..).symm, rfl⟩
    rw [flatten, List.flatMap_cons] at h
    rcases Text.cases_of_append_eq h with ⟨z, hx, hps⟩ | ⟨v, hp, hy⟩
    · exact further z hx hps
    · exact ⟨[], p, ps, x, v, rfl, hp, rfl, hy⟩

end Macro

end PixelWrap
