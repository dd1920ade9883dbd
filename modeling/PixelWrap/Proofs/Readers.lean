import Mathlib
import PixelWrap.Text.Quoted
import PixelWrap.Token.Lexer

/-!
# How far a token looks ahead

A number or a word is read as far as it goes, and to see where it ends the characters
behind it have to be looked at.  Those that count are few: where a character stands that
can be part of neither, all readers stop.  So a token is read in the same way wherever it
stands, if the text behind it starts with such a character or if there is one in the part
of the text that stays.

## Main definitions

* `Token.isSoft`: the characters that can be part of a number or a word.
* `Token.HardHead`: a text does not start with such a character.
* `Token.Bounded`: a text has an end behind which nothing is looked at.

## Main results

* `Token.exists_of_first?`: a token takes up the front of the text.
* `Token.first?_append`: what is read in front of a bounded text does not depend on what
  follows.
-/

namespace PixelWrap.Token

/-! ### Characters of numbers and words -/

/-- A character that can be part of a number or a word. -/
def isSoft (c : Char) : Bool := isNameChar c || c == '.' || c == '+' || c == '-'

/-- No number and no word goes on with the text. -/
def HardHead (s : Text) : Prop := ∀ c ∈ s.head?, isSoft c = false

theorem isSoft_of_isNameChar {c : Char} (h : isNameChar c = true) : isSoft c = true := by
  simp [isSoft, h]

theorem isSoft_of_isDigit {c : Char} (h : c.isDigit = true) : isSoft c = true :=
  isSoft_of_isNameChar (by simp [isNameChar, Char.isAlphanum, h])

theorem isSoft_of_isHexDigit {c : Char} (h : isHexDigit c = true) : isSoft c = true := by
  refine isSoft_of_isNameChar ?_
  simp only [isHexDigit, Bool.or_eq_true, Bool.and_eq_true, decide_eq_true_eq, Char.le_def,
    UInt32.le_iff_toNat_le] at h
  simp only [isNameChar, Char.isAlphanum, Char.isAlpha, Char.isUpper, Char.isLower,
    UInt32.le_iff_toNat_le, Bool.or_eq_true, Bool.and_eq_true, decide_eq_true_eq]
  rcases h with (h | h) | h
  · exact .inl (.inr h)
  · refine .inl (.inl (.inr ?_))
    simp at h ⊢
    omega
  · refine .inl (.inl (.inl ?_))
    simp at h ⊢
    omega

theorem isSoft_of_isOctDigit {c : Char} (h : isOctDigit c = true) : isSoft c = true := by
  refine isSoft_of_isDigit ?_
  simp only [isOctDigit, Bool.and_eq_true, decide_eq_true_eq, Char.le_def,
    UInt32.le_iff_toNat_le] at h
  simp only [Char.isDigit, UInt32.le_iff_toNat_le, Bool.and_eq_true, decide_eq_true_eq]
  simp at h ⊢
  omega

theorem isSoft_of_or {c x y : Char} (h : (c == x || c == y) = true) (hx : isSoft x = true)
    (hy : isSoft y = true) : isSoft c = true := by
  simp only [Bool.or_eq_true, beq_iff_eq] at h
  rcases h with rfl | rfl
  · exact hx
  · exact hy

theorem HardHead.eq_false {p : Char → Bool} {s : Text} (hs : HardHead s)
    (hp : ∀ c, p c = true → isSoft c = true) : ∀ c ∈ s.head?, p c = false := by
  intro c hc
  by_contra hne
  have hsoft := hp c (by simpa using hne)
  rw [hs c hc] at hsoft
  cases hsoft

section Append

variable {p : Char → Bool} {a s : Text}

theorem takeWhile_append_hard (hp : ∀ c, p c = true → isSoft c = true) (hs : HardHead s) :
    (a ++ s).takeWhile p = a.takeWhile p := by
  induction a with
  | nil =>
    cases s with
    | nil => rfl
    | cons c s => simp [hs.eq_false hp c rfl]
  | cons c a ih => simp [List.takeWhile_cons, ih]

theorem dropWhile_append_hard (hp : ∀ c, p c = true → isSoft c = true) (hs : HardHead s) :
    (a ++ s).dropWhile p = a.dropWhile p ++ s := by
  induction a with
  | nil =>
    cases s with
    | nil => rfl
    | cons c s => simp [hs.eq_false hp c rfl]
  | cons c a ih =>
    rw [List.cons_append, List.dropWhile_cons, List.dropWhile_cons]
    split
    · exact ih
    · rfl

theorem takeWhile_isDigit_append (hs : HardHead s) :
    (a ++ s).takeWhile Char.isDigit = a.takeWhile Char.isDigit :=
  takeWhile_append_hard (fun _ => isSoft_of_isDigit) hs

theorem dropWhile_isDigit_append (hs : HardHead s) :
    (a ++ s).dropWhile Char.isDigit = a.dropWhile Char.isDigit ++ s :=
  dropWhile_append_hard (fun _ => isSoft_of_isDigit) hs

/-! ### Numbers -/

theorem exponent?_of_hardHead (hs : HardHead s) : exponent? s = none := by
  cases s with
  | nil => rfl
  | cons c s =>
    have hc := hs.eq_false (p := fun c => c == 'e' || c == 'E')
      (fun c hc => isSoft_of_or hc (by decide) (by decide)) c rfl
    simp only [exponent?, hc, Bool.false_eq_true, if_false]

theorem exponent?_append (hs : HardHead s) : exponent? (a ++ s) = exponent? a := by
  cases a with
  | nil => exact exponent?_of_hardHead hs
  | cons e r =>
    have hsign : ((r ++ s).take 1).filter (fun c => c == '+' || c == '-') =
        (r.take 1).filter (fun c => c == '+' || c == '-') := by
      cases r with
      | cons c r => rfl
      | nil =>
        cases s with
        | nil => rfl
        | cons c s =>
          have hc := hs.eq_false (p := fun c => c == '+' || c == '-')
            (fun c hc => isSoft_of_or hc (by decide) (by decide)) c rfl
          simp only [List.nil_append, List.take_succ_cons, List.take_zero, List.take_nil,
            List.filter_cons, hc, Bool.false_eq_true, if_false]
    have hlen : ((r.take 1).filter fun c => c == '+' || c == '-').length ≤ r.length :=
      Nat.le_trans (List.length_filter_le _ _) (List.length_take_le' _ _)
    have hdigits :
        ((r ++ s).drop ((r.take 1).filter fun c => c == '+' || c == '-').length).takeWhile
          Char.isDigit =
        (r.drop ((r.take 1).filter fun c => c == '+' || c == '-').length).takeWhile
          Char.isDigit := by
      rw [List.drop_append_of_le_length hlen, takeWhile_isDigit_append hs]
    simp only [List.cons_append, exponent?, hsign, hdigits]

end Append

/-- A number whose digits no point follows. -/
theorem decimal?_of_ne {t : Text} (h : (t.dropWhile Char.isDigit).head? ≠ some '.') :
    decimal? t = if (t.takeWhile Char.isDigit).isEmpty then none
      else (exponent? (t.dropWhile Char.isDigit)).map fun (e, spelled) =>
        ⟨ofDigits 10 (t.takeWhile Char.isDigit), e, t.takeWhile Char.isDigit ++ spelled⟩ := by
  rw [decimal?]
  split
  · next heq =>
    rw [heq] at h
    exact absurd rfl h
  · rfl

/-- A number whose digits neither a point nor an exponent follows. -/
theorem float?_eq_none {t : Text}
    (h : ∀ c ∈ (t.dropWhile Char.isDigit).head?, c ∉ ['.', 'e', 'E']) : float? t = none := by
  have hpoint : (t.dropWhile Char.isDigit).head? ≠ some '.' := by
    intro hc
    exact h '.' hc (by decide)
  have hexponent : exponent? (t.dropWhile Char.isDigit) = none := by
    cases hr : t.dropWhile Char.isDigit with
    | nil => rfl
    | cons c r =>
      have hc := h c (by rw [hr]; rfl)
      simp only [List.mem_cons, not_or] at hc
      simp [exponent?, hc]
  rw [float?, decimal?_of_ne hpoint, hexponent]
  split <;> rfl

/-- A number whose digits a point follows. -/
theorem decimal?_of_point {t r : Text} (h : t.dropWhile Char.isDigit = '.' :: r) :
    decimal? t =
      if (t.takeWhile Char.isDigit).isEmpty && (r.takeWhile Char.isDigit).isEmpty then none
      else
        some {
          digits := ofDigits 10 (t.takeWhile Char.isDigit ++ r.takeWhile Char.isDigit)
          scale := ((exponent? (r.dropWhile Char.isDigit)).getD (0, [])).1 -
            (r.takeWhile Char.isDigit).length
          lexeme := t.takeWhile Char.isDigit ++ '.' :: r.takeWhile Char.isDigit ++
            ((exponent? (r.dropWhile Char.isDigit)).getD (0, [])).2 } := by
  rw [decimal?]
  split
  · next heq =>
    rw [h] at heq
    cases heq
    rfl
  · next hne => exact absurd h (hne r)

section Append

variable {a s : Text}

theorem head?_append_hard {c : Char} (hc : isSoft c = true) (hs : HardHead s) :
    (a ++ s).head? = some c ↔ a.head? = some c := by
  cases a with
  | cons d a => rfl
  | nil =>
    constructor
    · intro h
      have hfalse := hs c h
      rw [hc] at hfalse
      cases hfalse
    · intro h
      cases h

theorem decimal?_append (hs : HardHead s) : decimal? (a ++ s) = decimal? a := by
  have htake := takeWhile_isDigit_append (a := a) hs
  have hdrop := dropWhile_isDigit_append (a := a) hs
  by_cases hpoint : (a.dropWhile Char.isDigit).head? = some '.'
  · obtain ⟨r, hr⟩ := List.head?_eq_some_iff.mp hpoint
    rw [hr, List.cons_append] at hdrop
    rw [decimal?_of_point hdrop, decimal?_of_point hr, htake,
      takeWhile_isDigit_append hs, dropWhile_isDigit_append hs, exponent?_append hs]
  · have hne : ((a ++ s).dropWhile Char.isDigit).head? ≠ some '.' := by
      rw [hdrop, Ne, head?_append_hard (by decide) hs]
      exact hpoint
    rw [decimal?_of_ne hne, decimal?_of_ne hpoint, htake, hdrop, exponent?_append hs]

end Append

/-! ### What a reader takes up -/

/-- The characters that a reader takes up are at the front of the text, and they are soft. -/
structure Takes (t l : Text) : Prop where
  isPrefix : l <+: t
  soft : ∀ c ∈ l, isSoft c = true

theorem Takes.append {t l m : Text} (h : Takes (l ++ t) l) (hm : Takes t m) :
    Takes (l ++ t) (l ++ m) := by
  refine ⟨List.prefix_append_right_inj _ |>.mpr hm.isPrefix, ?_⟩
  intro c hc
  rcases List.mem_append.mp hc with hc | hc
  · exact h.soft c hc
  · exact hm.soft c hc

theorem takes_takeWhile {p : Char → Bool} (hp : ∀ c, p c = true → isSoft c = true) (t : Text) :
    Takes t (t.takeWhile p) :=
  ⟨List.takeWhile_prefix p, fun c hc => hp c (List.mem_takeWhile_imp hc)⟩

theorem takes_singleton {c : Char} (hc : isSoft c = true) (t : Text) : Takes (c :: t) [c] := by
  refine ⟨⟨t, rfl⟩, ?_⟩
  intro d hd
  cases List.mem_singleton.mp hd
  exact hc

theorem takes_nil (t : Text) : Takes t [] := ⟨List.nil_prefix, nofun⟩

/-- The digits that a text starts with, and what is taken up behind them. -/
theorem takes_digits_append {t l : Text} (h : Takes (t.dropWhile Char.isDigit) l) :
    Takes t (t.takeWhile Char.isDigit ++ l) := by
  have hd := takes_takeWhile (fun _ => isSoft_of_isDigit) t
  have hsplit := List.takeWhile_append_dropWhile (p := Char.isDigit) (l := t)
  have happend := Takes.append (l := t.takeWhile Char.isDigit) (t := t.dropWhile Char.isDigit)
    (by rw [hsplit]; exact hd) h
  rwa [hsplit] at happend

theorem exponent?_takes {t l : Text} {e : Int} (h : exponent? t = some (e, l)) : Takes t l := by
  cases t with
  | nil => cases h
  | cons c r =>
    have hsign : Takes r ((r.take 1).filter fun c => c == '+' || c == '-') := by
      cases r with
      | nil => exact takes_nil _
      | cons d r =>
        rw [List.take_succ_cons, List.take_zero, List.filter_cons, List.filter_nil]
        split
        · next hd =>
          exact takes_singleton (isSoft_of_or hd (by decide) (by decide)) r
        · exact takes_nil _
    rw [exponent?] at h
    split at h
    · next hc =>
      simp only at h
      split at h
      · cases h
      · cases h
        generalize (r.take 1).filter (fun c => c == '+' || c == '-') = sign at hsign
        obtain ⟨rest, rfl⟩ := hsign.isPrefix
        rw [List.drop_left]
        exact Takes.append (l := [c]) (takes_singleton (isSoft_of_or hc (by decide) (by decide)) _)
          (hsign.append (takes_takeWhile (fun _ => isSoft_of_isDigit) rest))
    · cases h

theorem decimal?_takes {t : Text} {d : Decimal} (h : decimal? t = some d) :
    Takes t d.lexeme ∧ d.lexeme ≠ [] := by
  by_cases hpoint : (t.dropWhile Char.isDigit).head? = some '.'
  · obtain ⟨r, hr⟩ := List.head?_eq_some_iff.mp hpoint
    rw [decimal?_of_point hr] at h
    split at h
    · cases h
    · cases h
      refine ⟨?_, by simp⟩
      have hexp : Takes (r.dropWhile Char.isDigit)
          ((exponent? (r.dropWhile Char.isDigit)).getD (0, [])).2 := by
        cases he : exponent? (r.dropWhile Char.isDigit) with
        | none => exact takes_nil _
        | some x => exact exponent?_takes he
      rw [List.append_assoc]
      refine takes_digits_append ?_
      rw [hr]
      exact Takes.append (l := ['.']) (takes_singleton (by decide) _) (takes_digits_append hexp)
  · rw [decimal?_of_ne hpoint] at h
    split at h
    · cases h
    · next hne =>
      obtain ⟨⟨e, spelled⟩, he, rfl⟩ := Option.map_eq_some_iff.mp h
      refine ⟨takes_digits_append (exponent?_takes he), ?_⟩
      simp only [ne_eq, List.append_eq_nil_iff, not_and]
      intro hnil
      rw [hnil] at hne
      exact absurd rfl hne

/-- A letter after what is taken up is taken up as well. -/
theorem Takes.suffix {t l r : Text} {c : Char} (h : Takes t l) (hr : t.drop l.length = c :: r)
    (hc : isSoft c = true) : Takes t (l ++ [c]) := by
  obtain ⟨rest, rfl⟩ := h.isPrefix
  rw [List.drop_left] at hr
  subst hr
  exact h.append (takes_singleton hc r)

theorem float?_takes {t l : Text} {k : Token} (h : float? t = some (k, l)) :
    Takes t l ∧ l ≠ [] := by
  obtain ⟨d, hd, h⟩ := Option.bind_eq_some_iff.mp h
  obtain ⟨htakes, hne⟩ := decimal?_takes hd
  have hsuffix : ∀ {c x y : Char} {r : Text}, t.drop d.lexeme.length = c :: r →
      (c == x || c == y) = true → isSoft x = true → isSoft y = true →
      Takes t (d.lexeme ++ [c]) ∧ d.lexeme ++ [c] ≠ [] :=
    fun hr hc hx hy => ⟨htakes.suffix hr (isSoft_of_or hc hx hy), by simp⟩
  split at h
  · next c r hr =>
    split at h
    · next hc =>
      cases h
      exact hsuffix hr hc (by decide) (by decide)
    · split at h
      · next hc =>
        cases h
        exact hsuffix hr hc (by decide) (by decide)
      · split at h
        · next hc =>
          cases h
          exact hsuffix hr hc (by decide) (by decide)
        · cases h
          exact ⟨htakes, hne⟩
  · cases h
    exact ⟨htakes, hne⟩

/-- A whole number without the letter after it. -/
def whole? (t : Text) : Option (UInt64 × Text) :=
  (hexNumber? t).or ((octNumber? t).or (decNumber? t))

theorem fitting?_ne_nil {base : Nat} {ds : Text} {v : UInt64} (h : fitting? base ds = some v) :
    ds ≠ [] := by
  rintro rfl
  cases h

theorem whole?_takes {t l : Text} {v : UInt64} (h : whole? t = some (v, l)) :
    Takes t l ∧ l ≠ [] := by
  rcases Option.or_eq_some_iff.mp h with hhex | ⟨-, hother⟩
  · clear h
    unfold hexNumber? at hhex
    split at hhex
    · next x r =>
      split at hhex
      · next hx =>
        obtain ⟨_, -, ⟨⟩⟩ := Option.map_eq_some_iff.mp hhex
        have hdigits := takes_takeWhile (fun _ => isSoft_of_isHexDigit) r
        have hx' := takes_singleton (isSoft_of_or hx (by decide) (by decide)) r
        refine ⟨Takes.append (l := ['0']) (takes_singleton (by decide) _) ?_, by simp⟩
        exact hx'.append (l := [x]) hdigits
      · cases hhex
    · cases hhex
  · clear h
    rcases Option.or_eq_some_iff.mp hother with hoct | ⟨-, hdec⟩
    · clear hother
      unfold octNumber? at hoct
      split at hoct
      · next r =>
        obtain ⟨_, -, ⟨⟩⟩ := Option.map_eq_some_iff.mp hoct
        exact ⟨Takes.append (l := ['0']) (takes_singleton (by decide) _)
          (takes_takeWhile (fun _ => isSoft_of_isOctDigit) r), by simp⟩
      · cases hoct
    · obtain ⟨_, hv, ⟨⟩⟩ := Option.map_eq_some_iff.mp hdec
      exact ⟨takes_takeWhile (fun _ => isSoft_of_isDigit) t, fitting?_ne_nil hv⟩

theorem int?_eq (t : Text) : int? t = (whole? t).bind fun (value, digits) =>
    match t.drop digits.length with
    | c :: _ =>
      if c == 'u' || c == 'U' then some (.uint value, digits ++ [c])
      else if c == 'l' || c == 'L' then some (.long value, digits ++ [c])
      else some (.int value, digits)
    | [] => some (.int value, digits) := rfl

theorem int?_takes {t l : Text} {k : Token} (h : int? t = some (k, l)) : Takes t l ∧ l ≠ [] := by
  rw [int?_eq] at h
  obtain ⟨⟨value, digits⟩, hd, h⟩ := Option.bind_eq_some_iff.mp h
  obtain ⟨htakes, hne⟩ := whole?_takes hd
  simp only at h
  split at h
  · next c r hr =>
    split at h
    · next hc =>
      cases h
      exact ⟨htakes.suffix hr (isSoft_of_or hc (by decide) (by decide)), by simp⟩
    · split at h
      · next hc =>
        cases h
        exact ⟨htakes.suffix hr (isSoft_of_or hc (by decide) (by decide)), by simp⟩
      · cases h
        exact ⟨htakes, hne⟩
  · cases h
    exact ⟨htakes, hne⟩

section Append

variable {a s : Text}

theorem float?_append (hs : HardHead s) : float? (a ++ s) = float? a := by
  rw [float?, float?, decimal?_append hs]
  cases hd : decimal? a with
  | none => rfl
  | some d =>
    have hlen : d.lexeme.length ≤ a.length := (decimal?_takes hd).1.isPrefix.length_le
    simp only [Option.bind_eq_bind, Option.bind_some, List.drop_append_of_le_length hlen]
    cases a.drop d.lexeme.length with
    | cons c r => rfl
    | nil =>
      cases s with
      | nil => rfl
      | cons c s =>
        -- A character that is not soft is none of the letters.
        have hletter : ∀ x y : Char, isSoft x = true → isSoft y = true →
            (c == x || c == y) = false :=
          fun x y hx hy => hs.eq_false (fun c hc => isSoft_of_or hc hx hy) c rfl
        simp [hletter 'h' 'H' (by decide) (by decide), hletter 'f' 'F' (by decide) (by decide),
          hletter 'l' 'L' (by decide) (by decide)]

theorem hexNumber?_append (hs : HardHead s) : hexNumber? (a ++ s) = hexNumber? a := by
  match a with
  | [] =>
    have hzero := mt (head?_append_hard (a := []) (c := '0') (by decide) hs).mp nofun
    match s with
    | [] => rfl
    | [c] => simp [hexNumber?]
    | c :: d :: s =>
      have hc : c ≠ '0' := fun hc => hzero (congrArg some hc)
      simp [hexNumber?, hc]
  | [c] =>
    match s with
    | [] => rfl
    | d :: s =>
      have hd : (d == 'x' || d == 'X') = false :=
        hs.eq_false (fun c hc => isSoft_of_or hc (by decide) (by decide)) d rfl
      by_cases hc : c = '0'
      · subst hc
        simp only [List.cons_append, List.nil_append, hexNumber?, hd, Bool.false_eq_true, if_false]
      · simp [hexNumber?, hc]
  | c :: d :: r =>
    by_cases hc : c = '0'
    · subst hc
      simp only [List.cons_append, hexNumber?,
        takeWhile_append_hard (a := r) (fun _ => isSoft_of_isHexDigit) hs]
    · simp [hexNumber?, hc]

theorem octNumber?_append (hs : HardHead s) : octNumber? (a ++ s) = octNumber? a := by
  match a with
  | [] =>
    have hzero := mt (head?_append_hard (a := []) (c := '0') (by decide) hs).mp nofun
    match s with
    | [] => rfl
    | c :: s =>
      have hc : c ≠ '0' := fun hc => hzero (congrArg some hc)
      simp [octNumber?, hc]
  | c :: r =>
    by_cases hc : c = '0'
    · subst hc
      simp only [List.cons_append, octNumber?,
        takeWhile_append_hard (a := r) (fun _ => isSoft_of_isOctDigit) hs]
    · simp [octNumber?, hc]

theorem whole?_append (hs : HardHead s) : whole? (a ++ s) = whole? a := by
  rw [whole?, whole?, hexNumber?_append hs, octNumber?_append hs, decNumber?, decNumber?,
    takeWhile_isDigit_append hs]

theorem int?_append (hs : HardHead s) : int? (a ++ s) = int? a := by
  rw [int?_eq, int?_eq, whole?_append hs]
  cases hd : whole? a with
  | none => rfl
  | some x =>
    obtain ⟨value, digits⟩ := x
    have hlen : digits.length ≤ a.length := (whole?_takes hd).1.isPrefix.length_le
    simp only [Option.bind_some, List.drop_append_of_le_length hlen]
    cases a.drop digits.length with
    | cons c r => rfl
    | nil =>
      cases s with
      | nil => rfl
      | cons c s =>
        have hletter : ∀ x y : Char, isSoft x = true → isSoft y = true →
            (c == x || c == y) = false :=
          fun x y hx hy => hs.eq_false (fun c hc => isSoft_of_or hc hx hy) c rfl
        simp [hletter 'u' 'U' (by decide) (by decide), hletter 'l' 'L' (by decide) (by decide)]

theorem word?_append (hs : HardHead s) : word? (a ++ s) = word? a := by
  have hname : ∀ c, isNameStart c = true → isSoft c = true :=
    fun c hc => isSoft_of_isNameChar (isNameChar_of_isNameStart hc)
  have hsplit : (Text.splitName (a ++ s)).1 = (Text.splitName a).1 := by
    cases a with
    | cons c r =>
      rw [List.cons_append, Text.splitName, Text.splitName]
      split
      · simp only [takeWhile_append_hard (fun _ => isSoft_of_isNameChar) hs]
      · rfl
    | nil =>
      cases s with
      | nil => rfl
      | cons c s => simp [Text.splitName, hs.eq_false hname c rfl]
  rw [word?, word?, hsplit]

end Append

theorem word?_takes {t l : Text} {k : Token} (h : word? t = some (k, l)) : Takes t l ∧ l ≠ [] := by
  unfold word? at h
  simp only at h
  split at h
  · cases h
  · next hne =>
    cases h
    refine ⟨⟨⟨_, Text.splitName_append t⟩, ?_⟩, by simpa using hne⟩
    intro c hc
    unfold Text.splitName at hc
    split at hc
    · cases hc
    · next d r =>
      split at hc
      · next hd =>
        rcases List.mem_cons.mp hc with rfl | hc
        · exact isSoft_of_isNameChar (isNameChar_of_isNameStart hd)
        · exact isSoft_of_isNameChar (List.mem_takeWhile_imp hc)
      · cases hc

/-! ### Strings and symbols -/

theorem untilQuote?_other {c : Char} (hslash : c ≠ '\\') (hquote : c ≠ '"') (hfeed : c ≠ '\n')
    (r : Text) : untilQuote? (c :: r) = (untilQuote? r).map (c :: ·) := by
  rw [untilQuote?, if_neg (by simpa using hquote), if_neg (by simpa using hfeed)]
  exact fun _ _ h => absurd h hslash

/-- A literal goes up to its closing quote, whatever follows that. -/
theorem exists_of_untilQuote? {t raw : Text} (h : untilQuote? t = some raw) :
    (∃ w, t = raw ++ '"' :: w) ∧ ∀ w, untilQuote? (raw ++ '"' :: w) = some raw := by
  induction t using Quoted.literal_induction generalizing raw with
  | nil | backslash | lineFeed => cases h
  | escape c r ih =>
    obtain ⟨raw, hr, rfl⟩ := Option.map_eq_some_iff.mp h
    obtain ⟨⟨w, rfl⟩, hall⟩ := ih hr
    exact ⟨⟨w, rfl⟩, fun w => congrArg (Option.map _) (hall w)⟩
  | quote r =>
    cases h
    exact ⟨⟨r, rfl⟩, fun w => rfl⟩
  | other c r hslash hquote hfeed ih =>
    rw [untilQuote?_other hslash hquote hfeed] at h
    obtain ⟨raw, hr, rfl⟩ := Option.map_eq_some_iff.mp h
    obtain ⟨⟨w, rfl⟩, hall⟩ := ih hr
    refine ⟨⟨w, rfl⟩, fun w => ?_⟩
    rw [List.cons_append, untilQuote?_other hslash hquote hfeed, hall w]
    rfl

theorem exists_of_string? {t l : Text} {k : Token} (h : string? t = some (k, l)) :
    l <+: t ∧ (∀ w, string? (l ++ w) = some (k, l)) ∧
      ∃ raw, l = '"' :: (raw ++ ['"']) ∧ ∀ w, untilQuote? (raw ++ '"' :: w) = some raw := by
  unfold string? at h
  split at h
  · next r =>
    obtain ⟨raw, hraw, ⟨⟩⟩ := Option.map_eq_some_iff.mp h
    obtain ⟨⟨w, rfl⟩, hall⟩ := exists_of_untilQuote? hraw
    refine ⟨⟨w, by simp⟩, fun w => ?_, raw, rfl, hall⟩
    simp [string?, hall]
  · cases h

theorem string?_cons {c : Char} (h : c ≠ '"') (r : Text) : string? (c :: r) = none := by
  unfold string?
  split
  · next heq =>
    obtain ⟨rfl, -⟩ := List.cons.inj heq
    exact absurd rfl h
  · rfl

theorem symbol?_congr {s t : Text} (h : ∀ x ∈ symbols, x.1.isPrefixOf s = x.1.isPrefixOf t) :
    symbol? s = symbol? t := by
  rw [symbol?, symbol?, List.find?_congr h]

/-- A symbol of two characters starts with `=` or `!`. -/
theorem symbol?_cons {c : Char} (h : c ≠ '=' ∧ c ≠ '!') (w : Text) :
    symbol? (c :: w) = symbol? [c] := by
  refine symbol?_congr fun x hx => ?_
  have hall : symbols.all (fun x => x.1.length == 1 || x.1.head? == some '=' ||
      x.1.head? == some '!') = true := by decide
  have hx' := List.all_eq_true.mp hall x hx
  obtain ⟨l, s⟩ := x
  match l with
  | [] => rfl
  | [d] => simp [List.isPrefixOf]
  | d :: e :: l =>
    have hd : (d == c) = false := by
      simp only [List.length_cons, List.head?_cons, Bool.or_eq_true, beq_iff_eq,
        Option.some.injEq] at hx'
      rcases hx' with (hlen | rfl) | rfl
      · omega
      · simpa using h.1.symm
      · simpa using h.2.symm
    simp [List.isPrefixOf, hd]

theorem symbol?_cons_cons (c d : Char) (w : Text) : symbol? (c :: d :: w) = symbol? [c, d] := by
  refine symbol?_congr fun x hx => ?_
  have hall : symbols.all (fun x => decide (x.1.length ≤ 2)) = true := by decide
  have hx' := List.all_eq_true.mp hall x hx
  obtain ⟨l, s⟩ := x
  match l with
  | [] => rfl
  | [e] => simp [List.isPrefixOf]
  | [e, e'] => simp [List.isPrefixOf]
  | _ :: _ :: _ :: _ => simp at hx'

/-- A symbol of two characters ends in `=`. -/
theorem symbol?_cons_of_head {c : Char} {v : Text} (h : v.head? ≠ some '=') :
    symbol? (c :: v) = symbol? [c] := by
  refine symbol?_congr fun x hx => ?_
  have hall : symbols.all (fun x => x.1.length == 1 || x.1.drop 1 == ['=']) = true := by decide
  have hx' := List.all_eq_true.mp hall x hx
  obtain ⟨m, s⟩ := x
  match m, v with
  | [], _ => rfl
  | [e], _ => simp [List.isPrefixOf]
  | e :: f :: m, [] => rfl
  | e :: f :: m, d :: v =>
    obtain ⟨rfl, rfl⟩ : f = '=' ∧ m = [] := by simpa using hx'
    have hd : d ≠ '=' := fun hd => h (congrArg some hd)
    simp [List.isPrefixOf, Ne.symm hd]

theorem exists_of_symbol? {t l : Text} {k : Token} (h : symbol? t = some (k, l)) :
    l <+: t ∧ ∃ s, (l, s) ∈ symbols ∧ k = .symbol s := by
  obtain ⟨⟨l, s⟩, hfind, ⟨⟩⟩ := Option.map_eq_some_iff.mp h
  have hfront : l.isPrefixOf t = true := by simpa using List.find?_some hfind
  exact ⟨List.isPrefixOf_iff_prefix.mp hfront, s, List.mem_of_find?_eq_some hfind, rfl⟩

/-! ### One token -/

/-- A character that is neither a blank nor a quote. -/
def isSolid (c : Char) : Bool := !isBlank c && c != '"'

theorem isSolid_of_isSoft {c : Char} (h : isSoft c = true) : isSolid c = true := by
  by_contra hne
  have hc : c = ' ' ∨ c = '\t' ∨ c = '\r' ∨ c = '\n' ∨ c = '"' := by
    simp [isSolid, isBlank] at hne
    tauto
  rcases hc with rfl | rfl | rfl | rfl | rfl <;> exact absurd h (by decide)

/-- **A token takes up the front of the text.**  It is a literal, or it has no blank and no
quote in it. -/
theorem exists_of_first? {t l : Text} {k : Token} (h : first? t = some (k, l)) :
    l <+: t ∧ l ≠ [] ∧ ((∀ c ∈ l, isSolid c = true) ∨
      ∃ raw, l = '"' :: (raw ++ ['"']) ∧ ∀ w, untilQuote? (raw ++ '"' :: w) = some raw) := by
  have hsoft : Takes t l ∧ l ≠ [] → l <+: t ∧ l ≠ [] ∧ ((∀ c ∈ l, isSolid c = true) ∨
      ∃ raw, l = '"' :: (raw ++ ['"']) ∧ ∀ w, untilQuote? (raw ++ '"' :: w) = some raw) :=
    fun ⟨htakes, hne⟩ =>
      ⟨htakes.isPrefix, hne, .inl fun c hc => isSolid_of_isSoft (htakes.soft c hc)⟩
  rcases Option.or_eq_some_iff.mp h with h | ⟨-, h⟩
  · exact hsoft (float?_takes h)
  rcases Option.or_eq_some_iff.mp h with h | ⟨-, h⟩
  · exact hsoft (int?_takes h)
  rcases Option.or_eq_some_iff.mp h with h | ⟨-, h⟩
  · obtain ⟨hfront, -, raw, rfl, hall⟩ := exists_of_string? h
    exact ⟨hfront, by simp, .inr ⟨raw, rfl, hall⟩⟩
  rcases Option.or_eq_some_iff.mp h with h | ⟨-, h⟩
  · exact hsoft (word?_takes h)
  · obtain ⟨hfront, s, hs, rfl⟩ := exists_of_symbol? h
    have hall : symbols.all (fun s => !s.1.isEmpty && s.1.all isSolid) = true := by decide
    have hmem := List.all_eq_true.mp hall _ hs
    simp only [Bool.and_eq_true, Bool.not_eq_true', List.isEmpty_eq_false_iff,
      List.all_eq_true] at hmem
    exact ⟨hfront, hmem.1, .inl hmem.2⟩

/-- The token is a name or a reserved word. -/
def isWord : Token → Bool
  | .name _ | .keyword _ => true
  | _ => false

theorem isWord_ofWord (w : String) : isWord (ofWord w) = true := by
  unfold ofWord
  split <;> rfl

section Kinds

variable {t l : Text} {k : Token} {s : Symbol}

theorem float?_token (h : float? t = some (k, l)) : isWord k = false ∧ k ≠ .symbol s := by
  obtain ⟨d, -, h⟩ := Option.bind_eq_some_iff.mp h
  repeat' split at h
  all_goals
    cases h
    exact ⟨rfl, nofun⟩

theorem int?_token (h : int? t = some (k, l)) : isWord k = false ∧ k ≠ .symbol s := by
  rw [int?_eq] at h
  obtain ⟨d, -, h⟩ := Option.bind_eq_some_iff.mp h
  simp only at h
  repeat' split at h
  all_goals
    cases h
    exact ⟨rfl, nofun⟩

theorem string?_token (h : string? t = some (k, l)) : isWord k = false ∧ k ≠ .symbol s := by
  unfold string? at h
  split at h
  · obtain ⟨raw, -, ⟨⟩⟩ := Option.map_eq_some_iff.mp h
    exact ⟨rfl, nofun⟩
  · cases h

theorem word?_token (h : word? t = some (k, l)) : isWord k = true ∧ k ≠ .symbol s := by
  unfold word? at h
  simp only at h
  split at h
  · cases h
  · cases h
    refine ⟨isWord_ofWord _, fun hk => ?_⟩
    have hword := isWord_ofWord (String.ofList (Text.splitName t).1)
    rw [hk] at hword
    cases hword

theorem word?_of_first? (h : first? t = some (k, l)) (hk : isWord k = true) :
    word? t = some (k, l) := by
  have hne : ∀ {b : Prop}, isWord k = false ∧ b → False := by
    rintro b ⟨hfalse, -⟩
    rw [hk] at hfalse
    cases hfalse
  rcases Option.or_eq_some_iff.mp h with h | ⟨-, h⟩
  · exact (hne (float?_token (s := .comma) h)).elim
  rcases Option.or_eq_some_iff.mp h with h | ⟨-, h⟩
  · exact (hne (int?_token (s := .comma) h)).elim
  rcases Option.or_eq_some_iff.mp h with h | ⟨-, h⟩
  · exact (hne (string?_token (s := .comma) h)).elim
  rcases Option.or_eq_some_iff.mp h with h | ⟨-, h⟩
  · exact h
  · obtain ⟨-, s, -, rfl⟩ := exists_of_symbol? h
    cases hk

theorem symbol?_of_first? (h : first? t = some (.symbol s, l)) :
    symbol? t = some (.symbol s, l) := by
  rcases Option.or_eq_some_iff.mp h with h | ⟨-, h⟩
  · exact absurd rfl (float?_token h).2
  rcases Option.or_eq_some_iff.mp h with h | ⟨-, h⟩
  · exact absurd rfl (int?_token h).2
  rcases Option.or_eq_some_iff.mp h with h | ⟨-, h⟩
  · exact absurd rfl (string?_token h).2
  rcases Option.or_eq_some_iff.mp h with h | ⟨-, h⟩
  · exact absurd rfl (word?_token h).2
  · exact h

/-- A word is read as far as it goes. -/
theorem of_first?_word {v : Text} (h : first? (l ++ v) = some (k, l)) (hk : isWord k = true) :
    (∀ c ∈ l, isSoft c = true) ∧ (∀ c ∈ l.head?, isNameChar c = true) ∧
      ∀ c ∈ v.head?, isNameChar c = false := by
  have hword := word?_of_first? h hk
  refine ⟨(word?_takes hword).1.soft, ?_⟩
  unfold word? at hword
  simp only at hword
  split at hword
  · cases hword
  · next hne =>
    have hl : (Text.splitName (l ++ v)).1 = l := (Prod.mk.inj (Option.some.inj hword)).2
    have hv : (Text.splitName (l ++ v)).2 = v := by
      have happend := Text.splitName_append (l ++ v)
      rw [hl] at happend
      exact List.append_cancel_left happend
    rw [hl] at hne
    cases l with
    | nil => exact absurd rfl hne
    | cons d l =>
      rw [List.cons_append, Text.splitName] at hl hv
      split at hl
      · next hd =>
        rw [if_pos hd] at hv
        have hrest : (l ++ v).dropWhile isNameChar = v := hv
        refine ⟨fun c hc => ?_, fun c hc => ?_⟩
        · cases hc
          exact isNameChar_of_isNameStart hd
        · have hhead := List.head?_dropWhile_not isNameChar (l ++ v)
          rw [hrest, Option.mem_def.mp hc] at hhead
          exact hhead
      · cases hl

/-- A text that starts like a name can only start with a word. -/
theorem first?_of_isNameStart {c : Char} (hc : isNameStart c = true) (r : Text) :
    first? (c :: r) = word? (c :: r) := by
  have hdigits : (c :: r).takeWhile Char.isDigit = [] := by
    simp [isDigit_of_isNameStart hc]
  have hrest : (c :: r).dropWhile Char.isDigit = c :: r := by
    simp [isDigit_of_isNameStart hc]
  have hne : ∀ {d : Char}, isNameStart d = false → c ≠ d := by
    rintro d hd rfl
    rw [hc] at hd
    cases hd
  have hdecimal : decimal? (c :: r) = none := by
    rw [decimal?_of_ne, hdigits]
    · rfl
    · rw [hrest]
      exact fun h => hne (by decide) (Option.some.inj h)
  have hint : int? (c :: r) = none := by
    have hhex : hexNumber? (c :: r) = none := by
      unfold hexNumber?
      split
      · next heq => exact absurd (List.cons.inj heq).1 (hne (by decide))
      · rfl
    have hoct : octNumber? (c :: r) = none := by
      unfold octNumber?
      split
      · next heq => exact absurd (List.cons.inj heq).1 (hne (by decide))
      · rfl
    rw [int?_eq, whole?, hhex, hoct, decNumber?, hdigits]
    rfl
  have hword : word? (c :: r) = some (ofWord (String.ofList (c :: r.takeWhile isNameChar)),
      c :: r.takeWhile isNameChar) := by
    rw [word?, Text.splitName, if_pos hc]
    rfl
  rw [first?, float?, hdecimal, hint, string?_cons (hne (by decide)), hword]
  rfl

/-- A name is read as a word. -/
theorem first?_of_isName (h : Text.isName t = true) :
    first? t = some (ofWord (String.ofList t), t) := by
  cases t with
  | nil => cases h
  | cons c r =>
    rw [Text.isName, Text.splitName] at h
    split at h
    · next hc =>
      have hname : (Text.splitName (c :: r)).1 = c :: r := by
        have happend := Text.splitName_append (c :: r)
        rw [Text.splitName, if_pos hc] at happend ⊢
        rw [Bool.and_eq_true, List.isEmpty_iff] at h
        rw [h.2, List.append_nil] at happend
        exact happend
      rw [first?_of_isNameStart hc, word?, hname]
      rfl
    · cases h

end Kinds

/-- Nothing behind the text `v` that follows `x` has to be looked at to read what stands in
`x`: there is a character in `x` at which every reader stops, or `v` starts with one.  And
`x` does not end in a character that could be the first half of a symbol. -/
structure Bounded (x v : Text) : Prop where
  hard : (∃ c ∈ x, isSoft c = false) ∨ HardHead v
  last : ∀ c ∈ x.getLast?, c ≠ '=' ∧ c ≠ '!'

theorem Bounded.exists_split {x v v' : Text} (h : Bounded x v) (h' : Bounded x v') :
    ∃ a s s', x ++ v = a ++ s ∧ x ++ v' = a ++ s' ∧ HardHead s ∧ HardHead s' := by
  by_cases hx : ∃ c ∈ x, isSoft c = false
  · refine ⟨x.takeWhile isSoft, x.dropWhile isSoft ++ v, x.dropWhile isSoft ++ v', ?_, ?_, ?_⟩
    · rw [← List.append_assoc, List.takeWhile_append_dropWhile]
    · rw [← List.append_assoc, List.takeWhile_append_dropWhile]
    · obtain ⟨c, hc, hsoft⟩ := hx
      cases hd : x.dropWhile isSoft with
      | nil =>
        have hall := List.dropWhile_eq_nil_iff.mp hd c hc
        rw [hsoft] at hall
        cases hall
      | cons d r =>
        have hhead : isSoft d = false := by
          have := List.head?_dropWhile_not isSoft x
          rw [hd] at this
          simpa using this
        refine ⟨?_, ?_⟩ <;>
        · intro e he
          cases he
          exact hhead
  · exact ⟨x, v, v', rfl, rfl, h.hard.resolve_left hx, h'.hard.resolve_left hx⟩

/-- A text that starts with a quote can only be a literal. -/
theorem first?_quote (r : Text) : first? ('"' :: r) = string? ('"' :: r) := by
  have hhard : HardHead ('"' :: r) := by
    rintro c ⟨⟩
    rfl
  have hfloat := float?_append (a := []) hhard
  have hint := int?_append (a := []) hhard
  have hword := word?_append (a := []) hhard
  have hsymbol : symbol? ('"' :: r) = none := by
    rw [symbol?_cons (by decide)]
    decide
  rw [List.nil_append] at hfloat hint hword
  rw [first?, hfloat, hint, hword, hsymbol]
  exact Option.or_none

/-- A character that can be part of no other token is a symbol, whatever follows. -/
theorem first?_of_hard {c : Char} (hc : isSoft c = false) (hq : c ≠ '"') (he : c ≠ '=' ∧ c ≠ '!')
    (r : Text) : first? (c :: r) = symbol? [c] := by
  have hhard : HardHead (c :: r) := by
    rintro d ⟨⟩
    exact hc
  have hfloat := float?_append (a := []) hhard
  have hint := int?_append (a := []) hhard
  have hword := word?_append (a := []) hhard
  rw [List.nil_append] at hfloat hint hword
  rw [first?, hfloat, hint, hword, string?_cons hq, symbol?_cons he]
  rfl

theorem symbol?_append {c : Char} {r v v' : Text} (h : ∀ d ∈ (c :: r).getLast?, d ≠ '=' ∧ d ≠ '!') :
    symbol? (c :: (r ++ v')) = symbol? (c :: (r ++ v)) := by
  cases r with
  | nil => rw [symbol?_cons (h c rfl), symbol?_cons (h c rfl) ([] ++ v)]
  | cons d r =>
    rw [List.cons_append, List.cons_append, symbol?_cons_cons, symbol?_cons_cons c d (r ++ v)]

/-- **What is read in a text does not depend on what follows it** if nothing of that has to
be looked at. -/
theorem first?_append {x v v' l : Text} {k : Token} (h : first? (x ++ v) = some (k, l))
    (hl : l <+: x) (hv : Bounded x v) (hv' : Bounded x v') : first? (x ++ v') = some (k, l) := by
  match x with
  | [] =>
    have hne := (exists_of_first? h).2.1
    exact absurd (List.prefix_nil.mp hl) hne
  | c :: r =>
    by_cases hc : c = '"'
    · subst hc
      rw [List.cons_append, first?_quote] at h ⊢
      obtain ⟨-, hall, -⟩ := exists_of_string? h
      obtain ⟨w, hw⟩ := hl
      rw [← List.cons_append, ← hw, List.append_assoc]
      exact hall _
    · obtain ⟨a, s, s', hs, hs', hhard, hhard'⟩ := hv.exists_split hv'
      have hsymbol : symbol? (c :: r ++ v') = symbol? (c :: r ++ v) := symbol?_append hv.last
      have hstring : string? (c :: r ++ v') = string? (c :: r ++ v) :=
        (string?_cons hc _).trans (string?_cons hc _).symm
      rw [← h, first?, first?, hsymbol, hstring, hs, hs', float?_append hhard,
        float?_append hhard', int?_append hhard, int?_append hhard', word?_append hhard,
        word?_append hhard']

end PixelWrap.Token
