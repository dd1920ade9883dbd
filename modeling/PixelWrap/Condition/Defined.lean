import PixelWrap.Text.Basic

/-!
# The operator `defined`

Before the macros of a condition are replaced, each `defined X` and `defined(X)` in
it becomes `1` or `0` by whether `X` names a macro.

## Main definitions

* `Condition.operand?`: reads the operand of `defined`.
* `Condition.resolveDefined?`: replaces each use of `defined` in a condition.
-/

namespace PixelWrap.Condition

/-- The word that asks whether a macro is defined. -/
def definedWord : Text := ['d', 'e', 'f', 'i', 'n', 'e', 'd']

/-- Reads the operand of `defined`, a name that may stand in parentheses, and
returns it with the text after it. -/
def operand? (t : Text) : Option (Text × Text) :=
  match Text.trimStart t with
  | '(' :: inner =>
    let (name, rest) := Text.splitName (Text.trimStart inner)
    match Text.trimStart rest with
    | ')' :: after => if name.isEmpty then none else some (name, after)
    | _ => none
  | t =>
    let (name, rest) := Text.splitName t
    if name.isEmpty then none else some (name, rest)

theorem length_trimStart_le (t : Text) : (Text.trimStart t).length ≤ t.length :=
  (List.dropWhile_suffix isSpace).length_le

theorem length_splitName_snd_le (t : Text) : (Text.splitName t).2.length ≤ t.length := by
  have h := congrArg List.length (Text.splitName_append t)
  rw [List.length_append] at h
  omega

/-- The text after an operand is no longer than the text it was read from. -/
theorem length_operand?_le {t name after : Text} (h : operand? t = some (name, after)) :
    after.length ≤ t.length := by
  have h₀ := length_trimStart_le t
  unfold operand? at h
  split at h
  · next inner hi =>
    simp only at h
    split at h
    · next r hr =>
      split at h
      · cases h
      · cases h
        have h₁ := length_trimStart_le inner
        have h₂ := length_splitName_snd_le (Text.trimStart inner)
        have h₃ := length_trimStart_le (Text.splitName (Text.trimStart inner)).2
        rw [hr] at h₃
        rw [hi] at h₀
        simp only [List.length_cons] at h₀ h₃
        omega
    · cases h
  · simp only at h
    split at h
    · cases h
    · cases h
      have := length_splitName_snd_le (Text.trimStart t)
      omega

/-- Whether the word between two texts runs on into one of them. -/
def runsOn (before after : Text) : Bool :=
  before.getLast?.any isNameChar || after.head?.any isNameChar

/-- Replaces each use of `defined` by `1` or `0`; `none` if one has no operand.
Occurrences are found from left to right, each in the text after the one before it,
and one that is part of a longer word there is passed over. -/
def resolveDefined? (isDefined : String → Bool) (t : Text) : Option Text :=
  match _hc : Text.cut? definedWord t with
  | none => some t
  | some (before, after) =>
    if runsOn before after then
      (resolveDefined? isDefined after).map (before ++ definedWord ++ ·)
    else
      match _ho : operand? after with
      | none => none
      | some (name, rest) =>
        (resolveDefined? isDefined rest).map
          (before ++ [if isDefined (String.ofList name) then '1' else '0'] ++ ·)
termination_by t.length
decreasing_by
  · have := congrArg List.length (Text.eq_of_cut? _hc)
    simp only [List.length_append, definedWord, List.length_cons] at this
    omega
  · have h₁ := congrArg List.length (Text.eq_of_cut? _hc)
    have h₂ := length_operand?_le _ho
    simp only [List.length_append, definedWord, List.length_cons] at h₁
    omega

end PixelWrap.Condition
