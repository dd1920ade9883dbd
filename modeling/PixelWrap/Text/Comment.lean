import PixelWrap.Text.Basic

/-!
# Blanking comments

Comments are overwritten with spaces, one for each byte, and keep their line ends.
So directives and macros never see a comment, while every byte of the text keeps
its offset and every line its number.

## Main definitions

* `Comment.Mode`: where the scan stands.
* `Comment.blank`: the text with its comments overwritten.
-/

namespace PixelWrap.Comment

/-- What the next character belongs to. -/
inductive Mode where
  /-- Program text. -/
  | code
  /-- A comment that ends with its line. -/
  | line
  /-- A comment that ends with a star and a slash. -/
  | block
  /-- A string literal, in which nothing starts a comment. -/
  | quoted
  deriving DecidableEq, Repr

/-- What stands in place of a character of a comment: line ends stay, and any other
character becomes as many spaces as it has bytes. -/
def blankChar (c : Char) : Text :=
  if c == '\n' || c == '\r' then [c] else List.replicate c.utf8Size ' '

@[simp] theorem size_blankChar (c : Char) : Text.size (blankChar c) = c.utf8Size := by
  unfold blankChar
  split
  · simp
  · have h : (' ').utf8Size = 1 := rfl
    simp [h]

theorem isBlank_of_mem_blankChar {c x : Char} (h : x ∈ blankChar c) : isBlank x = true := by
  unfold blankChar at h
  split at h
  · next hc =>
    cases List.mem_singleton.mp h
    simp only [Bool.or_eq_true, beq_iff_eq] at hc
    rcases hc with rfl | rfl <;> rfl
  · rw [List.eq_of_mem_replicate h]
    rfl

/-- The text with its comments overwritten, from the given mode on. -/
def blankFrom : Mode → Text → Text
  | _, [] => []
  | .code, '/' :: '/' :: r => ' ' :: ' ' :: blankFrom .line r
  | .code, '/' :: '*' :: r => ' ' :: ' ' :: blankFrom .block r
  | .code, c :: r => c :: blankFrom (if c == '"' then .quoted else .code) r
  | .line, c :: r => blankChar c ++ blankFrom (if c == '\n' then .code else .line) r
  | .block, '*' :: '/' :: r => ' ' :: ' ' :: blankFrom .code r
  | .block, c :: r => blankChar c ++ blankFrom .block r
  | .quoted, '\\' :: c :: r => '\\' :: c :: blankFrom .quoted r
  | .quoted, c :: r =>
    c :: blankFrom (if c == '"' || c == '\n' then .code else .quoted) r

/-- The text with its comments overwritten. -/
def blank (t : Text) : Text := blankFrom .code t

/-- Blanking keeps the length in bytes. -/
theorem size_blankFrom (m : Mode) (t : Text) :
    Text.size (blankFrom m t) = Text.size t := by
  fun_induction blankFrom m t <;> simp_all <;> rfl

end PixelWrap.Comment
