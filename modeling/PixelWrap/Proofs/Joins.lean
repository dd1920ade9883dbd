import Mathlib.Tactic.Common
import PixelWrap.Proofs.Offsets
import PixelWrap.Text.Comment

/-!
# Texts that are put together

A text is read from its start on: where comments stand, where lines end and which lines
are directives is found out from left to right.  If one text is put in front of another
one, then the second is read as on its own where the first one leaves nothing open.

## Main definitions

* `Comment.modeAfter`: where the scan for comments stands after a text.
* `Comment.Kept`: a character does not start a comment.
* `Comment.Leads`: what becomes of a stretch of text, and where the scan stands behind it.
* `Comment.Clean`: a text does not end in the first half of a mark.
* `endsContinued`: the lines end in a directive that runs on.
* `Item.content`: an item without its offset.

## Main results

* `Comment.Clean.leads`: over a clean text the scan gets on as if nothing followed.
* `Comment.blankFrom_append`: comments are blanked in each of the two texts.
* `Text.lines_append`: the lines are those of the two texts.
* `Item.ofLines_append`: the items are those of the two texts if the second one starts
  with a directive.
* `Item.map_content_ofLines`: only the offsets depend on what stands in front.
-/

namespace PixelWrap

/-! ### Comments -/

namespace Comment

/-- Where the scan stands after a text; it follows the equations of `blankFrom`. -/
def modeAfter : Mode → Text → Mode
  | m, [] => m
  | .code, '/' :: '/' :: r => modeAfter .line r
  | .code, '/' :: '*' :: r => modeAfter .block r
  | .code, c :: r => modeAfter (if c == '"' then .quoted else .code) r
  | .line, c :: r => modeAfter (if c == '\n' then .code else .line) r
  | .block, '*' :: '/' :: r => modeAfter .code r
  | .block, _ :: r => modeAfter .block r
  | .quoted, '\\' :: _ :: r => modeAfter .quoted r
  | .quoted, c :: r => modeAfter (if c == '"' || c == '\n' then .code else .quoted) r

/-- The character does not start a comment with the text behind it. -/
def Kept (c : Char) (t : Text) : Prop := c = '/' → t.head? ≠ some '/' ∧ t.head? ≠ some '*'

section Kept

variable {c : Char} {t : Text}

theorem kept_of_ne (hline : ∀ s, c = '/' → t = '/' :: s → False)
    (hblock : ∀ s, c = '/' → t = '*' :: s → False) : Kept c t := by
  intro hc
  constructor
  · intro hhead
    obtain ⟨s, hs⟩ := List.head?_eq_some_iff.mp hhead
    exact hline s hc hs
  · intro hhead
    obtain ⟨s, hs⟩ := List.head?_eq_some_iff.mp hhead
    exact hblock s hc hs

/-- In front of a slash it does not matter what follows. -/
theorem Kept.append_of_slash {s : Text} (h : Kept c (s ++ '/' :: t)) (y : Text) :
    Kept c (s ++ y) := by
  intro hc
  cases s with
  | nil => exact absurd rfl (h hc).1
  | cons d s => exact h hc

theorem blankFrom_code_cons (h : Kept c t) :
    blankFrom .code (c :: t) = c :: blankFrom (if c == '"' then .quoted else .code) t := by
  rw [blankFrom]
  · rintro s hc rfl
    exact (h hc).1 rfl
  · rintro s hc rfl
    exact (h hc).2 rfl

theorem modeAfter_code_cons (h : Kept c t) :
    modeAfter .code (c :: t) = modeAfter (if c == '"' then .quoted else .code) t := by
  rw [modeAfter]
  · rintro s hc rfl
    exact (h hc).1 rfl
  · rintro s hc rfl
    exact (h hc).2 rfl

theorem blank_cons (hq : c ≠ '"') (h : Kept c t) : blank (c :: t) = c :: blank t := by
  rw [blank, blankFrom_code_cons h, beq_eq_false_iff_ne.mpr hq]
  rfl

theorem modeAfter_cons (hq : c ≠ '"') (h : Kept c t) :
    modeAfter .code (c :: t) = modeAfter .code t := by
  rw [modeAfter_code_cons h, beq_eq_false_iff_ne.mpr hq]
  rfl

end Kept

/-- Over the text `s` the scan for comments gets from the mode `m` to the mode `m'` and puts
out the text `out`, whatever follows. -/
structure Leads (m : Mode) (s out : Text) (m' : Mode) : Prop where
  text : ∀ y, blankFrom m (s ++ y) = out ++ blankFrom m' y
  mode : ∀ y, modeAfter m (s ++ y) = modeAfter m' y

section Leads

variable {m m' m'' : Mode} {c : Char} {s s' out out' : Text}

theorem Leads.nil (m : Mode) : Leads m [] [] m := ⟨fun _ => rfl, fun _ => rfl⟩

theorem Leads.append (h : Leads m s out m') (h' : Leads m' s' out' m'') :
    Leads m (s ++ s') (out ++ out') m'' := by
  constructor
  · intro y
    rw [List.append_assoc, h.text, h'.text, List.append_assoc]
  · intro y
    rw [List.append_assoc, h.mode, h'.mode]

theorem Leads.blankFrom_eq (h : Leads m s out m') : blankFrom m s = out := by
  have happend := h.text []
  rwa [List.append_nil, blankFrom, List.append_nil] at happend

theorem Leads.size_eq (h : Leads m s out m') : Text.size out = Text.size s := by
  rw [← h.blankFrom_eq, size_blankFrom]

theorem Leads.ne_nil (h : Leads m s out m') (hm : m ≠ m') : s ≠ [] := by
  rintro rfl
  exact hm (by simpa [modeAfter] using h.mode [])

theorem leads_openLine : Leads .code ['/', '/'] [' ', ' '] .line := ⟨fun _ => rfl, fun _ => rfl⟩

theorem leads_openBlock : Leads .code ['/', '*'] [' ', ' '] .block := ⟨fun _ => rfl, fun _ => rfl⟩

theorem leads_closeBlock : Leads .block ['*', '/'] [' ', ' '] .code := ⟨fun _ => rfl, fun _ => rfl⟩

theorem leads_escape (c : Char) : Leads .quoted ['\\', c] ['\\', c] .quoted :=
  ⟨fun _ => rfl, fun _ => rfl⟩

theorem leads_code (hs : c ≠ '/') (hq : c ≠ '"') : Leads .code [c] [c] .code :=
  ⟨fun _ => blank_cons hq fun h => absurd h hs, fun _ => modeAfter_cons hq fun h => absurd h hs⟩

theorem leads_line_char (c : Char) :
    Leads .line [c] (blankChar c) (if c == '\n' then .code else .line) := by
  constructor
  · intro y
    rw [List.singleton_append, blankFrom]
  · intro y
    rw [List.singleton_append, modeAfter]

theorem leads_quoted_char (hc : c ≠ '\\') :
    Leads .quoted [c] [c] (if c == '"' || c == '\n' then .code else .quoted) := by
  constructor
  · intro y
    rw [List.singleton_append, blankFrom]
    · rfl
    · exact fun _ _ h => absurd h hc
  · intro y
    rw [List.singleton_append, modeAfter]
    exact fun _ _ h => absurd h hc

theorem leads_quoted_other (hslash : c ≠ '\\') (hquote : c ≠ '"') (hfeed : c ≠ '\n') :
    Leads .quoted [c] [c] .quoted := by
  have hstep := leads_quoted_char hslash
  rwa [if_neg (by simp [hquote, hfeed])] at hstep

/-- In program text a character in front of `s` is copied, unless it starts a comment. -/
theorem Leads.cons_code (h : Leads (if c == '"' then .quoted else .code) s out m')
    (hc : ∀ y, Kept c (s ++ y)) : Leads .code (c :: s) (c :: out) m' := by
  constructor
  · intro y
    rw [List.cons_append, blankFrom_code_cons (hc y), h.text, List.cons_append]
  · intro y
    rw [List.cons_append, modeAfter_code_cons (hc y), h.mode]

/-- In a comment a character in front of `s` is overwritten, unless it starts the closing mark. -/
theorem Leads.cons_block (h : Leads .block s out m') (hc : c = '*' → ∀ y r, s ++ y ≠ '/' :: r) :
    Leads .block (c :: s) (blankChar c ++ out) m' := by
  constructor
  · intro y
    rw [List.cons_append, blankFrom, h.text, List.append_assoc]
    exact fun r hstar => hc hstar y r
  · intro y
    rw [List.cons_append, modeAfter, h.mode]
    exact fun r hstar => hc hstar y r

end Leads

/-- The text does not end in a character that the next one could turn into a mark. -/
def Clean (t : Text) : Prop := ∀ c ∈ t.getLast?, c ≠ '/' ∧ c ≠ '*' ∧ c ≠ '\\'

section Clean

variable {a b c : Char} {r s : Text}

theorem Clean.of_cons (h : Clean (c :: r)) : Clean r := by
  intro d hd
  cases r with
  | nil => cases hd
  | cons c' r => exact h d (by rwa [List.getLast?_cons_cons])

/-- In a clean text a mark is not completed by what follows. -/
theorem Clean.append_ne (h : Clean (c :: r)) (ha : a = '/' ∨ a = '*')
    (hr : ∀ r', c = a → r = b :: r' → False) (hc : c = a) (y r' : Text) : r ++ y ≠ b :: r' := by
  intro hy
  cases r with
  | nil =>
    obtain ⟨hslash, hstar, -⟩ := h c rfl
    rw [hc] at hslash hstar
    exact ha.elim hslash hstar
  | cons d r =>
    obtain ⟨rfl, -⟩ := List.cons.inj hy
    exact hr r hc rfl

/-- **Over a clean text the scan gets on as if nothing followed.** -/
theorem Clean.leads (m : Mode) (h : Clean s) : Leads m s (blankFrom m s) (modeAfter m s) := by
  fun_induction modeAfter m s with
  | case1 m =>
    rw [blankFrom]
    exact .nil m
  | case2 r ih => exact leads_openLine.append (ih h.of_cons.of_cons)
  | case3 r ih => exact leads_openBlock.append (ih h.of_cons.of_cons)
  | case4 c r hline hblock ih =>
    rw [blankFrom_code_cons (kept_of_ne hline hblock)]
    refine (ih h.of_cons).cons_code fun y => kept_of_ne ?_ ?_
    · exact fun r' hc => h.append_ne (.inl rfl) hline hc y r'
    · exact fun r' hc => h.append_ne (.inl rfl) hblock hc y r'
  | case5 c r ih =>
    rw [blankFrom]
    exact (leads_line_char c).append (ih h.of_cons)
  | case6 r ih => exact leads_closeBlock.append (ih h.of_cons.of_cons)
  | case7 c r hclose ih =>
    rw [blankFrom]
    · exact (ih h.of_cons).cons_block (h.append_ne (.inr rfl) hclose)
    · exact hclose
  | case8 c r ih => exact (leads_escape c).append (ih h.of_cons.of_cons)
  | case9 c r hescape ih =>
    have hc : c ≠ '\\' := by
      intro hc
      cases r with
      | nil => exact (h c rfl).2.2 hc
      | cons d r => exact hescape d r hc rfl
    rw [blankFrom]
    · exact (leads_quoted_char hc).append (ih h.of_cons)
    · exact hescape

/-- **Comments are blanked in each of two texts** if no mark stands across their border. -/
theorem blankFrom_append (m : Mode) (h : Clean s) (t : Text) :
    blankFrom m (s ++ t) = blankFrom m s ++ blankFrom (modeAfter m s) t :=
  (h.leads m).text t

theorem modeAfter_append (m : Mode) (h : Clean s) (t : Text) :
    modeAfter m (s ++ t) = modeAfter (modeAfter m s) t :=
  (h.leads m).mode t

end Clean

end Comment

/-! ### Lines -/

/-- The text is empty, or its last line is ended by a line feed. -/
def Text.Ended (t : Text) : Prop := ∀ c ∈ t.getLast?, c = '\n'

namespace Text

theorem Ended.append {s t : Text} (hs : Ended s) (ht : Ended t) : Ended (s ++ t) := by
  intro c hc
  rw [List.getLast?_append] at hc
  cases hl : t.getLast? with
  | none =>
    rw [hl] at hc
    exact hs c hc
  | some d =>
    rw [hl] at hc
    cases hc
    exact ht _ hl

theorem Ended.of_append {s t : Text} (h : Ended (s ++ t)) : Ended t := by
  intro c hc
  refine h c ?_
  rw [List.getLast?_append, hc]
  rfl

theorem Ended.clean {t : Text} (h : Ended t) : Comment.Clean t := by
  intro c hc
  rw [h c hc]
  decide

/-- **The lines of two texts are those of each**, if the first one does not end within
a line. -/
theorem lines_append {s : Text} (h : Ended s) (t : Text) : lines (s ++ t) = lines s ++ lines t := by
  induction s with
  | nil => rfl
  | cons c s ih =>
    have hs := ih (Ended.of_append (s := [c]) h)
    rw [List.cons_append, lines, lines]
    split
    · rw [hs, List.cons_append]
    · next hc =>
      -- A line that goes on has more of the first text behind it.
      cases hl : lines s with
      | nil =>
        have hnil : s = [] := by
          rw [← flatten_lines s, hl, List.flatten_nil]
        subst hnil
        exact absurd (beq_iff_eq.mpr (h c rfl)) hc
      | cons l ls =>
        rw [hs, hl]
        rfl

end Text

theorem Comment.blankFrom_eq_nil_iff {m : Mode} {t : Text} : blankFrom m t = [] ↔ t = [] := by
  constructor
  · intro h
    apply Text.eq_nil_of_size
    rw [← size_blankFrom m, h]
    rfl
  · rintro rfl
    rw [blankFrom]

/-- Blanking keeps the line feed at the end. -/
theorem Comment.ended_blankFrom (m : Mode) {t : Text} (h : Text.Ended t) :
    Text.Ended (blankFrom m t) := by
  -- What stands in front does not matter if there is something behind it.
  have further : ∀ {u w r : Text} {m : Mode}, Text.Ended (u ++ r) →
      (Text.Ended u → Text.Ended w) → (Text.Ended r → Text.Ended (blankFrom m r)) →
      Text.Ended (w ++ blankFrom m r) := by
    intro u w r m h hw ih
    by_cases hr : r = []
    · subst hr
      rw [blankFrom, List.append_nil]
      rw [List.append_nil] at h
      exact hw h
    · have hlast := List.getLast?_eq_some_getLast (mt (blankFrom_eq_nil_iff (m := m)).mp hr)
      intro c hc
      refine ih h.of_append c ?_
      rw [List.getLast?_append, hlast, Option.some_or] at hc
      rwa [hlast]
  have hmark : ∀ {a b : Char} {w : Text}, b ≠ '\n' → Text.Ended [a, b] → Text.Ended w := by
    intro a b w hb hab
    exact absurd (hab b rfl) hb
  have hchar : ∀ c : Char, Text.Ended [c] → Text.Ended (blankChar c) := by
    intro c hc
    cases hc c rfl
    exact hc
  fun_induction blankFrom m t with
  | case1 => exact h
  | case2 r ih => exact further (u := ['/', '/']) (w := [' ', ' ']) h (hmark (by decide)) ih
  | case3 r ih => exact further (u := ['/', '*']) (w := [' ', ' ']) h (hmark (by decide)) ih
  | case4 c r h₁ h₂ ih => exact further (u := [c]) h id ih
  | case5 c r ih => exact further (u := [c]) h (hchar c) ih
  | case6 r ih => exact further (u := ['*', '/']) (w := [' ', ' ']) h (hmark (by decide)) ih
  | case7 c r h₁ ih => exact further (u := [c]) h (hchar c) ih
  | case8 c r ih => exact further (u := ['\\', c]) h id ih
  | case9 c r h₁ ih => exact further (u := [c]) h id ih

/-! ### Items -/

/-- Whether a line after these lines would belong to a directive in them; the flag tells
that of the first of the lines. -/
def endsContinued (within : Bool) : List Text → Bool
  | [] => within
  | l :: ls => endsContinued (isContinued l && (within || isDirectiveLine l)) ls

section Lines

variable {l : Text} {ls ms : List Text}

theorem continuation_append (ms : List Text) (h : endsContinued (isContinued l) ls = false) :
    continuation l (ls ++ ms) = continuation l ls ∧
      endsContinued false (ls.drop (continuation l ls).length) = false := by
  induction ls generalizing l with
  | nil =>
    have hl : isContinued l = false := h
    cases ms with
    | nil => exact ⟨rfl, rfl⟩
    | cons m ms => simp [continuation, hl, endsContinued]
  | cons m ls ih =>
    cases hl : isContinued l with
    | false =>
      rw [hl] at h
      simpa [continuation, hl] using h
    | true =>
      rw [hl, endsContinued, Bool.true_or, Bool.and_true] at h
      obtain ⟨hc, hd⟩ := ih h
      simpa [continuation, hl, hc] using hd

theorem endsContinued_dropWhile (h : endsContinued false ls = false) :
    endsContinued false (ls.drop (ls.takeWhile (!isDirectiveLine ·)).length) = false := by
  induction ls with
  | nil => exact h
  | cons l ls ih =>
    cases hl : isDirectiveLine l with
    | true => simpa [hl] using h
    | false =>
      rw [endsContinued, hl, Bool.or_false, Bool.and_false] at h
      simpa [hl] using ih h

theorem takeWhile_append_directive (hm : ms.head?.all isDirectiveLine = true) :
    (ls ++ ms).takeWhile (!isDirectiveLine ·) = ls.takeWhile (!isDirectiveLine ·) := by
  induction ls with
  | nil =>
    cases ms with
    | nil => rfl
    | cons m ms =>
      have hm : isDirectiveLine m = true := hm
      simp [hm]
  | cons l ls ih => simp [List.takeWhile_cons, ih]

end Lines

namespace Item

/-- **The items of two lists of lines are those of each**, if no directive runs on from
the first into the second and the second starts with a directive. -/
theorem ofLines_append (offset : Nat) {ls ms : List Text} (h : endsContinued false ls = false)
    (hm : ms.head?.all isDirectiveLine = true) :
    ofLines offset (ls ++ ms) =
      ofLines offset ls ++ ofLines (offset + Text.size ls.flatten) ms := by
  induction hn : ls.length using Nat.strongRecOn generalizing offset ls with
  | ind n ih =>
    subst hn
    cases ls with
    | nil => simp [ofLines]
    | cons l ls =>
      have further : ∀ {more : List Text}, more <+: ls →
          endsContinued false (ls.drop more.length) = false →
          ofLines (offset + Text.size (l :: more).flatten) ((ls ++ ms).drop more.length) =
            ofLines (offset + Text.size (l :: more).flatten) (ls.drop more.length) ++
              ofLines (offset + Text.size (l :: ls).flatten) ms := by
        rintro more ⟨rest, rfl⟩ hr
        rw [List.append_assoc, List.drop_left, List.drop_left] at *
        rw [ih rest.length (by simp only [List.length_cons, List.length_append]; omega) _ hr rfl]
        simp [Nat.add_assoc]
      rw [List.cons_append, ofLines, ofLines]
      cases hl : isDirectiveLine l with
      | true =>
        rw [endsContinued, hl, Bool.or_true, Bool.and_true] at h
        obtain ⟨hc, hd⟩ := continuation_append ms h
        simp only [if_true, hc, further (continuation_isPrefix l ls) hd, List.cons_append]
      | false =>
        rw [endsContinued, hl, Bool.or_false, Bool.and_false] at h
        simp only [takeWhile_append_directive hm,
          further (List.takeWhile_prefix _) (endsContinued_dropWhile h)]
        rfl

/-- An item without its offset. -/
def content : Item → Item
  | .directive _ command => .directive 0 command
  | .region _ text => .region 0 text

/-- **Only the offsets of items depend on what stands in front of them.** -/
theorem map_content_ofLines (offset offset' : Nat) (ls : List Text) :
    (ofLines offset ls).map content = (ofLines offset' ls).map content := by
  induction hn : ls.length using Nat.strongRecOn generalizing offset offset' ls with
  | ind n ih =>
    subst hn
    cases ls with
    | nil => simp [ofLines]
    | cons l ls =>
      have further : ∀ (k o o' : Nat),
          (ofLines o (ls.drop k)).map content = (ofLines o' (ls.drop k)).map content := by
        intro k o o'
        refine ih _ ?_ o o' _ rfl
        rw [List.length_drop, List.length_cons]
        omega
      rw [ofLines, ofLines]
      split
      · rw [List.map_cons, List.map_cons, further _ _ _]
        rfl
      · rw [List.map_cons, List.map_cons, further _ _ _]
        rfl

end Item

end PixelWrap
