import Mathlib.Tactic.Common
import PixelWrap.Source.Item

/-!
# Texts that stand in other texts

Offsets count bytes.  A text stands in another one at an offset if the bytes in front
of it number that many; the bytes of the two then agree from there on.  The items of a
text stand in it at the offsets they carry.

## Main definitions

* `Text.bytes`: the UTF-8 form of a text.
* `Text.StandsAt`: a text stands in another one at an offset.
* `Item.StandsIn`: an item stands in a text at the offset it carries.

## Main results

* `Text.StandsAt.getElem?_bytes`: where a text stands, the bytes agree.
* `Item.standsIn_of_mem_ofText`: the items of a text stand in it.
-/

namespace PixelWrap

namespace Text

/-! ### Bytes -/

/-- The UTF-8 form of a text. -/
def bytes (t : Text) : List UInt8 := t.flatMap String.utf8EncodeChar

@[simp] theorem bytes_append (s t : Text) : bytes (s ++ t) = bytes s ++ bytes t :=
  List.flatMap_append

@[simp] theorem length_bytes (t : Text) : (bytes t).length = size t := by
  induction t with
  | nil => rfl
  | cons c t ih =>
    rw [size_cons, ← ih]
    simp [bytes]

theorem size_pos {t : Text} (h : t ≠ []) : 0 < size t := by
  cases t with
  | nil => exact absurd rfl h
  | cons c t =>
    have := c.utf8Size_pos
    rw [size_cons]
    omega

/-- What stands in front of a character takes up less than the text. -/
theorem size_lt_of_eq_append {t x y : Text} {c : Char} (h : t = x ++ c :: y) :
    size x < size t := by
  have hpos : 0 < size (c :: y) := size_pos (List.cons_ne_nil c y)
  rw [h, size_append]
  omega

theorem eq_nil_of_size {t : Text} (h : size t = 0) : t = [] := by
  by_contra hne
  exact absurd h (Nat.ne_of_gt (size_pos hne))

/-! ### Fronts of a text -/

/-- Of two fronts of a text, the longer one starts with the other. -/
theorem exists_of_append_eq {s t x y : Text} (h : s ++ t = x ++ y) (hn : size s ≤ size x) :
    ∃ u, x = s ++ u ∧ t = u ++ y := by
  rcases List.append_eq_append_iff.mp h with ⟨u, rfl, rfl⟩ | ⟨u, rfl, hu⟩
  · exact ⟨u, rfl, rfl⟩
  · rw [size_append] at hn
    obtain rfl : u = [] := eq_nil_of_size (by omega)
    exact ⟨[], by simp, by simpa using hu.symm⟩

theorem append_inj_of_size {s t x y : Text} (h : s ++ t = x ++ y) (hn : size s = size x) :
    s = x ∧ t = y := by
  obtain ⟨u, rfl, rfl⟩ := exists_of_append_eq h (Nat.le_of_eq hn)
  rw [size_append] at hn
  obtain rfl : u = [] := eq_nil_of_size (by omega)
  exact ⟨(List.append_nil s).symm, rfl⟩

/-- A character of two texts in a row stands in one of them. -/
theorem cases_of_append_eq {s t x y : Text} {c : Char} (h : s ++ t = x ++ c :: y) :
    (∃ z, x = s ++ z ∧ t = z ++ c :: y) ∨ ∃ z, s = x ++ c :: z ∧ y = z ++ t := by
  rcases List.append_eq_append_iff.mp h with hx | ⟨z, hs, hy⟩
  · exact .inl hx
  · cases z with
    | nil => exact .inl ⟨[], by simpa using hs.symm, hy.symm⟩
    | cons d z =>
      obtain ⟨rfl, rfl⟩ := List.cons.inj hy
      exact .inr ⟨z, hs, rfl⟩

/-! ### Standing at an offset -/

/-- The text `s` stands in the text `t`, with `offset` bytes in front of it. -/
def StandsAt (s : Text) (offset : Nat) (t : Text) : Prop :=
  ∃ before after, t = before ++ s ++ after ∧ size before = offset

namespace StandsAt

variable {s s₁ s₂ t u : Text} {o o' : Nat}

theorem append_left (h : StandsAt (s₁ ++ s₂) o t) : StandsAt s₁ o t := by
  obtain ⟨before, after, rfl, hs⟩ := h
  exact ⟨before, s₂ ++ after, by simp, hs⟩

theorem append_right (h : StandsAt (s₁ ++ s₂) o t) : StandsAt s₂ (o + size s₁) t := by
  obtain ⟨before, after, rfl, hs⟩ := h
  exact ⟨before ++ s₁, after, by simp, by simp [hs]⟩

theorem add_size_le (h : StandsAt s o t) : o + size s ≤ size t := by
  obtain ⟨before, after, rfl, hs⟩ := h
  simp only [size_append]
  omega

/-- **Where a text stands, the bytes agree.** -/
theorem getElem?_bytes (h : StandsAt s o t) {d : Nat} (hd : d < size s) :
    (bytes t)[o + d]? = (bytes s)[d]? := by
  obtain ⟨before, after, rfl, hs⟩ := h
  have hb : (bytes before).length = o := by rw [length_bytes, hs]
  have hl : o + d < (bytes (before ++ s)).length := by
    rw [length_bytes, size_append]
    omega
  rw [bytes_append, List.getElem?_append_left hl, bytes_append,
    List.getElem?_append_right (by omega), hb, Nat.add_sub_cancel_left]

end StandsAt

/-! ### Lines -/

/-- The lines of a text make up the text. -/
theorem flatten_lines (t : Text) : (lines t).flatten = t := by
  fun_induction lines t with
  | case1 => rfl
  | case2 c r _ ih => simp [ih]
  | case3 c r _ h ih =>
    rw [h] at ih
    simp [← ih]
  | case4 c r _ l ls h ih =>
    rw [h] at ih
    simp [← ih]

end Text

/-! ### Items -/

theorem continuation_isPrefix (l : Text) (ls : List Text) : continuation l ls <+: ls := by
  fun_induction continuation l ls with
  | case1 => exact List.prefix_rfl
  | case2 l m ms _ ih => exact (List.prefix_cons_inj m).mpr ih
  | case3 => exact List.nil_prefix

namespace Item

/-- The item stands in the text: a region as a whole, a directive with its `#`. -/
def StandsIn (t : Text) : Item → Prop
  | .directive o _ => Text.StandsAt ['#'] o t
  | .region o x => Text.StandsAt x o t

/-- A line with a directive in it has a `#` after its white space. -/
theorem exists_of_isDirectiveLine {l : Text} (h : isDirectiveLine l = true) :
    ∃ r, l = l.takeWhile isSpace ++ ['#'] ++ r := by
  simp only [isDirectiveLine, Text.trimStart, beq_iff_eq] at h
  obtain ⟨r, hr⟩ := List.head?_eq_some_iff.mp h
  refine ⟨r, ?_⟩
  conv_lhs => rw [← List.takeWhile_append_dropWhile (p := isSpace) (l := l), hr]
  simp

/-- The items of lines stand in any text that ends in these lines. -/
theorem standsIn_of_mem_ofLines {before : Text} {ls : List Text} {i : Item}
    (h : i ∈ ofLines (Text.size before) ls) : i.StandsIn (before ++ ls.flatten) := by
  -- The induction is on the number of lines; what an item takes up moves to `before`.
  induction hn : ls.length using Nat.strongRecOn generalizing before ls with
  | ind n ih =>
    subst hn
    cases ls with
    | nil => simp [ofLines] at h
    | cons l ls =>
      have further : ∀ {more : List Text}, more <+: ls →
          i ∈ ofLines (Text.size before + Text.size (l :: more).flatten) (ls.drop more.length) →
          i.StandsIn (before ++ (l :: ls).flatten) := by
        intro more hm hi
        obtain ⟨rest, rfl⟩ := hm
        rw [List.drop_left, ← Text.size_append] at hi
        have := ih rest.length (by simp only [List.length_cons, List.length_append]; omega) hi rfl
        simpa using this
      rw [ofLines] at h
      split at h
      · next hl =>
        rcases List.mem_cons.mp h with rfl | hi
        · obtain ⟨r, hr⟩ := exists_of_isDirectiveLine hl
          refine ⟨before ++ l.takeWhile isSpace, r ++ ls.flatten, ?_, by simp⟩
          conv_lhs => rw [List.flatten_cons, hr]
          simp
        · exact further (continuation_isPrefix l ls) hi
      · rcases List.mem_cons.mp h with rfl | hi
        · obtain ⟨rest, hr⟩ := List.takeWhile_prefix (l := ls) (!isDirectiveLine ·)
          refine ⟨before, rest.flatten, ?_, rfl⟩
          conv_lhs => rw [← hr]
          simp
        · have hm := List.takeWhile_prefix (l := ls) (!isDirectiveLine ·)
          exact further hm hi

/-- **The items of a text stand in it.** -/
theorem standsIn_of_mem_ofText {t : Text} {i : Item} (h : i ∈ ofText t) : i.StandsIn t := by
  have : i.StandsIn ([] ++ (Text.lines t).flatten) := standsIn_of_mem_ofLines h
  rwa [List.nil_append, Text.flatten_lines] at this

end Item

end PixelWrap
