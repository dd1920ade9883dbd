import Mathlib.Tactic.Common
import PixelWrap.Text.Basic

/-!
# Occurrences of a text in another one

A pattern is looked for from the start of a text on.  What is found is its first occurrence, and
it is found exactly if the pattern occurs at all.

## Main results

* `Text.cut?_eq_none_iff`, `Text.contains_iff`: **a pattern is found if and only if it occurs.**
* `Text.length_le_of_cut?`: what is found is the first occurrence.
* `Text.firstLine_append`: the first line of a text that starts with a line.
* `Text.infix_join`: what is joined occurs in the outcome.
-/

namespace PixelWrap.Text

variable {pat t before after p q : Text}

/-- A pattern is not found if and only if it does not occur. -/
theorem cut?_eq_none_iff : cut? pat t = none ↔ ¬pat <:+: t := by
  induction t with
  | nil =>
    rw [cut?, List.infix_nil]
    split <;> simp_all
  | cons c r ih =>
    rw [cut?, List.infix_cons_iff, not_or, ← ih, ← List.isPrefixOf_iff_prefix]
    split
    · simp_all
    · simp_all

/-- **A pattern is found if and only if it occurs.** -/
theorem contains_iff : contains pat t = true ↔ pat <:+: t := by
  rw [← not_iff_not, ← cut?_eq_none_iff, contains, Bool.not_eq_true, Option.isSome_eq_false_iff,
    Option.isNone_iff_eq_none]

/-- Nothing in front of the first occurrence is an occurrence. -/
theorem length_le_of_cut? (h : cut? pat t = some (before, after))
    (ht : t = p ++ pat ++ q) : before.length ≤ p.length := by
  induction t generalizing before after p with
  | nil =>
    have hlength := congrArg List.length (eq_of_cut? h)
    simp only [List.length_nil, List.length_append] at hlength
    omega
  | cons c r ih =>
    rw [cut?] at h
    split at h
    · cases h
      exact Nat.zero_le _
    · next hfront =>
      obtain ⟨⟨b, a⟩, hr, hb⟩ := Option.map_eq_some_iff.mp h
      cases hb
      cases p with
      | nil =>
        refine absurd ?_ hfront
        rw [ht, List.isPrefixOf_iff_prefix]
        exact List.prefix_append pat q
      | cons d p =>
        have hle := ih hr (List.cons.inj ht).2
        simp only [List.length_cons]
        omega

/-- Where nothing is found, there is no occurrence. -/
theorem ne_of_cut?_eq_none (h : cut? pat t = none) : t ≠ p ++ pat ++ q := by
  rintro rfl
  exact cut?_eq_none_iff.mp h ⟨p, q, rfl⟩

/-- A character is found in front of the text that it is not in. -/
theorem cut?_of_notMem {c : Char} (h : c ∉ t) (u : Text) :
    cut? [c] (t ++ c :: u) = some (t, u) := by
  induction t with
  | nil => simp [cut?]
  | cons d t ih =>
    simp only [List.mem_cons, not_or] at h
    simp [cut?, h.1, ih h.2]

/-- The first line goes up to the first line feed. -/
theorem firstLine_append {l : Text} (hl : '\n' ∉ l) (hend : l.getLast? ≠ some '\r') (u : Text) :
    firstLine (l ++ '\n' :: u) = l := by
  rw [firstLine, cut?_of_notMem hl]
  exact if_neg (by simpa using hend)

theorem infix_join {ts : List Text} (h : t ∈ ts) (sep : Text) : t <:+: join sep ts := by
  induction ts with
  | nil => cases h
  | cons u us ih =>
    cases us with
    | nil =>
      rw [List.mem_singleton.mp h]
      exact List.infix_rfl
    | cons v us =>
      rw [join_cons_cons]
      rcases List.mem_cons.mp h with rfl | h
      · exact ⟨[], sep ++ join sep (v :: us), by simp⟩
      · exact (ih h).trans (List.suffix_append ..).isInfix

theorem mem_join {c : Char} {sep : Text} {ts : List Text} (h : c ∈ join sep ts) :
    c ∈ sep ∨ ∃ t ∈ ts, c ∈ t := by
  induction ts with
  | nil => cases h
  | cons t ts ih =>
    cases ts with
    | nil => exact .inr ⟨t, List.mem_singleton_self t, h⟩
    | cons u us =>
      rw [join_cons_cons, List.mem_append, List.mem_append] at h
      rcases h with (h | h) | h
      · exact .inr ⟨t, List.mem_cons_self .., h⟩
      · exact .inl h
      · exact (ih h).imp_right fun ⟨v, hv, hc⟩ => ⟨v, List.mem_cons_of_mem t hv, hc⟩

end PixelWrap.Text
