import PixelWrap.Text.Basic

/-!
# String literals in running text

A string literal runs from a double quote to the next one that no backslash
escapes, and never past the end of its line.  Text that is searched for names,
commas or parentheses passes over literals as a whole.

## Main definitions

* `Quoted.split`: cuts the text after an opening quote where the literal ends.
* `Quoted.escape`: the form of a text inside a literal.

## Main results

* `Quoted.literal_induction`: induction along what follows an opening quote.
-/

namespace PixelWrap.Quoted

/-- Splits the text after an opening quote into what belongs to the literal, with
its closing quote, and what follows.  An unclosed literal stops in front of the
line feed, or at the end of the text; the character after a backslash belongs to
the literal whatever it is. -/
def split : Text → Text × Text
  | [] => ([], [])
  | '\\' :: c :: r => (split r).map (fun q => '\\' :: c :: q) id
  | c :: r =>
    if c == '"' then ([c], r)
    else if c == '\n' then ([], c :: r)
    else (split r).map (c :: ·) id

theorem split_escape (c : Char) (r : Text) :
    split ('\\' :: c :: r) = ('\\' :: c :: (split r).1, (split r).2) := rfl

theorem split_other {c : Char} (hslash : c ≠ '\\') (hquote : c ≠ '"') (hfeed : c ≠ '\n')
    (r : Text) : split (c :: r) = (c :: (split r).1, (split r).2) := by
  rw [split, if_neg (by simpa using hquote), if_neg (by simpa using hfeed)]
  · rfl
  · exact fun _ _ h => absurd h hslash

/-- What follows the quote that opens a literal starts with an escape, with another character of
the literal, or with what ends it.  A backslash at the end of the text escapes nothing. -/
@[elab_as_elim]
theorem literal_induction {P : Text → Prop} (nil : P []) (backslash : P ['\\'])
    (escape : ∀ c r, P r → P ('\\' :: c :: r)) (quote : ∀ r, P ('"' :: r))
    (lineFeed : ∀ r, P ('\n' :: r))
    (other : ∀ c r, c ≠ '\\' → c ≠ '"' → c ≠ '\n' → P r → P (c :: r)) (t : Text) : P t := by
  fun_induction split t with
  | case1 => exact nil
  | case2 c r ih => exact escape c r ih
  | case3 c r _ hc =>
    cases eq_of_beq hc
    exact quote r
  | case4 c r _ _ hc =>
    cases eq_of_beq hc
    exact lineFeed r
  | case5 c r hescape hq hn ih =>
    by_cases hslash : c = '\\'
    · subst hslash
      cases r with
      | nil => exact backslash
      | cons d r => exact absurd rfl (hescape d r rfl)
    · exact other c r hslash (by simpa using hq) (by simpa using hn) ih

/-- Splitting loses nothing. -/
theorem split_append (t : Text) : (split t).1 ++ (split t).2 = t := by
  fun_induction split t with
  | case1 => rfl
  | case2 c r ih => simp [ih]
  | case3 => simp
  | case4 => simp
  | case5 c r _ _ _ ih => simp [ih]

/-- The text that a literal leaves is a suffix of the text it was cut from. -/
theorem split_snd_suffix (t : Text) : (split t).2 <:+ t :=
  ⟨(split t).1, split_append t⟩

/-- A text as it stands inside a literal: quotes and backslashes are escaped. -/
def escape : Text → Text
  | [] => []
  | c :: r => if c == '"' || c == '\\' then '\\' :: c :: escape r else c :: escape r

end PixelWrap.Quoted
