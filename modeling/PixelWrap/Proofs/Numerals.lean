import PixelWrap.Proofs.Partition

/-!
# Digits that are read as one number

A row of decimal digits, or `0x` and a row of hexadecimal ones, is meant as one number.  The
readers of whole numbers are tried one after the other, and each of them stops at the first
character that is no digit of its base.  So a reader that comes later can take up less than
one that failed, and the row falls apart: a hexadecimal number that is too large leaves its
zero to the decimal reader, and the octal reader stops in front of an eight or a nine.  This
module says for which rows that happens.

## Main definitions

* `Token.IsNumeral`: a row of digits.
* `Token.Unsplit`: a text from which no tokens or one whole number is read.
* `Token.isSplit`: decides whether a row of digits falls apart.

## Main results

* `Token.tokensFrom_of_whole?`, `Token.tokensFrom_of_whole?_eq_none`: what is read from a row
  of digits that is taken up as a whole or not at all.
* `Token.unsplit_iff`: **a row of digits is rejected or read as one number, unless it falls
  apart.**
-/

namespace PixelWrap.Token

open Text (size)

/-! ### Rows of digits -/

/-- Decimal digits, or `0x` and hexadecimal digits, and nothing else. -/
inductive IsNumeral : Text → Prop
  | decimal {s : Text} : s ≠ [] → (∀ d ∈ s, d.isDigit = true) → IsNumeral s
  | hexadecimal {x : Char} {ds : Text} : x = 'x' ∨ x = 'X' → ds ≠ [] →
      (∀ d ∈ ds, isHexDigit d = true) → IsNumeral ('0' :: x :: ds)

/-- Whether a token is a whole number. -/
def isWhole : Token → Bool
  | .int _ | .uint _ | .long _ => true
  | _ => false

/-- The text is rejected, or it is one whole number from its start to its end. -/
def Unsplit (s : Text) : Prop :=
  (∃ rest, tokens s = .error rest) ∨
    ∃ k, isWhole k = true ∧ tokens s = .ok [⟨k, ⟨0, size s⟩⟩]

/-- Whether a row of digits falls apart.  A hexadecimal one does if its value does not fit.
A decimal one with a zero in front does if an eight or a nine comes after digits of base
eight, and the values in front of it and from it on both fit. -/
def isSplit : Text → Bool
  | '0' :: x :: r =>
    if x == 'x' || x == 'X' then UInt64.size ≤ ofDigits 16 r
    else
      let front := (x :: r).takeWhile isOctDigit
      let back := (x :: r).dropWhile isOctDigit
      !front.isEmpty && !back.isEmpty && ofDigits 8 front < UInt64.size &&
        ofDigits 10 back < UInt64.size
  | _ => false

/-! ### Characters of a number -/

theorem isNameChar_of_isDigit {c : Char} (h : c.isDigit = true) : isNameChar c = true :=
  Condition.isNameChar_of_isHexDigit (Condition.isHexDigit_of_isDigit h)

theorem isNameStart_of_isDigit {c : Char} (h : c.isDigit = true) : isNameStart c = false := by
  rw [Bool.eq_false_iff]
  intro hstart
  rw [isDigit_of_isNameStart hstart] at h
  cases h

/-- No symbol starts with a digit. -/
theorem symbol?_of_isDigit {c : Char} (hc : c.isDigit = true) (r : Text) :
    symbol? (c :: r) = none := by
  have hall : symbols.all (fun x => x.1.head?.any fun d => !d.isDigit) = true := by decide
  by_contra hne
  obtain ⟨⟨k, l⟩, hl⟩ := Option.ne_none_iff_exists'.mp hne
  obtain ⟨hfront, s, hmem, -⟩ := exists_of_symbol? hl
  have hhead := List.all_eq_true.mp hall _ hmem
  cases l with
  | nil => cases hhead
  | cons d l =>
    obtain ⟨rfl, -⟩ := List.cons_prefix_cons.mp hfront
    simp [hc] at hhead

/-- A text that starts with a digit can only start with a number. -/
theorem first?_of_isDigit {c : Char} (hc : c.isDigit = true) (r : Text)
    (hfloat : float? (c :: r) = none) : first? (c :: r) = int? (c :: r) := by
  have hquote : c ≠ '"' := by
    rintro rfl
    cases hc
  have hword : word? (c :: r) = none := by
    rw [word?, splitName_of_head (by rintro d ⟨⟩; exact isNameStart_of_isDigit hc)]
    rfl
  rw [first?, hfloat, Option.none_or, string?_cons hquote, hword, symbol?_of_isDigit hc]
  simp

/-! ### Whole numbers that are read -/

section Whole

variable {s v : Text} {n : UInt64}

/-- Without a letter behind it, a number is an integer of no special kind. -/
theorem int?_of_whole? (h : whole? (s ++ v) = some (n, s))
    (hv : ∀ c ∈ v.head?, c ∉ ['u', 'U', 'l', 'L']) : int? (s ++ v) = some (.int n, s) := by
  rw [int?_eq, h, Option.bind_some]
  dsimp only
  rw [List.drop_left]
  cases v with
  | nil => rfl
  | cons c r =>
    have hc := hv c rfl
    simp only [List.mem_cons, not_or] at hc
    simp [hc]

theorem int?_of_whole?_eq_none (h : whole? s = none) : int? s = none := by
  rw [int?_eq, h]
  rfl

/-- A row of digits starts with a digit, and neither a point nor an exponent comes behind its
decimal digits. -/
theorem IsNumeral.first?_eq (h : IsNumeral s) :
    ∃ c r, s = c :: r ∧ c.isDigit = true ∧ first? s = int? s := by
  cases h with
  | decimal hne hd =>
    obtain ⟨c, r, rfl⟩ := List.exists_cons_of_ne_nil hne
    have hc := hd c (List.mem_cons_self ..)
    have hfloat : float? (c :: r) = none := by
      apply float?_eq_none
      rw [List.dropWhile_eq_nil_iff.mpr hd]
      exact nofun
    exact ⟨c, r, rfl, hc, first?_of_isDigit hc r hfloat⟩
  | @hexadecimal x ds hx _ _ =>
    have hzero : ('0' : Char).isDigit = true := by decide
    have hdigit : x.isDigit = false := by
      rcases hx with rfl | rfl <;> decide
    have hfloat : float? ('0' :: x :: ds) = none := by
      apply float?_eq_none
      rw [List.dropWhile_cons_of_pos hzero, List.dropWhile_cons_of_neg (by simp [hdigit])]
      rintro c ⟨⟩
      rcases hx with rfl | rfl <;> decide
    exact ⟨'0', _, rfl, hzero, first?_of_isDigit hzero _ hfloat⟩

theorem bare_of_isNameChar {c : Char} (hc : isNameChar c = true) (r : Text) : Bare (c :: r) := by
  intro u
  constructor
  · rintro ⟨⟩
    cases hc
  · rintro ⟨⟩
    cases hc

/-- **A row of digits from which no number is read is rejected.** -/
theorem tokensFrom_of_whole?_eq_none (h : IsNumeral s) (hn : whole? s = none) (o : Nat) :
    tokensFrom o s = .error s := by
  obtain ⟨c, r, rfl, hc, hfirst⟩ := h.first?_eq
  have hname := isNameChar_of_isDigit hc
  have hbare := bare_of_isNameChar hname r
  have hgap := splitGap_of_ne_comment (isBlank_of_isNameChar hname) hbare
  rw [tokensFrom_of_splitGap o hgap, startsComment_eq_false fun u => (hbare u).2, hfirst,
    int?_of_whole?_eq_none hn]
  rfl

/-- **The number at the start of a row of digits is read**, and then the rest of the row. -/
theorem tokensFrom_of_whole? (h : IsNumeral (s ++ v)) (hn : whole? (s ++ v) = some (n, s))
    (hv : ∀ c ∈ v.head?, c ∉ ['u', 'U', 'l', 'L']) (o : Nat) :
    tokensFrom o (s ++ v) =
      (tokensFrom (o + size s) v).map (⟨.int n, ⟨o, o + size s⟩⟩ :: ·) := by
  obtain ⟨c, r, hcr, hc, hfirst⟩ := h.first?_eq
  have hbare : Bare (s ++ v) := by
    rw [hcr]
    exact bare_of_isNameChar (isNameChar_of_isDigit hc) r
  have hcut : Cut.Reads ⟨[], .int n, s⟩ v :=
    ⟨.nil, hbare, by rw [hfirst, int?_of_whole? hn hv]⟩
  simpa using hcut.tokensFrom_eq o

theorem tokensFrom_of_whole?_self (h : IsNumeral s) (hn : whole? s = some (n, s)) (o : Nat) :
    tokensFrom o s = .ok [⟨.int n, ⟨o, o + size s⟩⟩] := by
  rw [← List.append_nil s] at h hn
  have hread := tokensFrom_of_whole? h (by simpa using hn) nofun o
  rw [List.append_nil] at hread
  rw [hread, tokensFrom_of_separatesLast _ Separates.nil.last]
  rfl

theorem unsplit_of_whole?_self (h : IsNumeral s) (hn : whole? s = some (n, s)) : Unsplit s := by
  refine .inr ⟨.int n, rfl, ?_⟩
  rw [tokens, tokensFrom_of_whole?_self h hn, Nat.zero_add]

theorem unsplit_of_whole?_eq_none (h : IsNumeral s) (hn : whole? s = none) : Unsplit s :=
  .inl ⟨s, tokensFrom_of_whole?_eq_none h hn 0⟩

theorem not_unsplit_of_tokens {a b : Lexeme} (h : tokens s = .ok [a, b]) : ¬Unsplit s := by
  rintro (⟨rest, hrest⟩ | ⟨k, -, hk⟩)
  · rw [h] at hrest
    cases hrest
  · rw [h] at hk
    cases hk

end Whole

/-! ### Which reader takes up a row of digits -/

section Readers

variable {c x : Char} {r ds : Text}

theorem fitting?_eq (base : Nat) (h : ds ≠ []) :
    fitting? base ds =
      if ofDigits base ds < UInt64.size then some (.ofNat (ofDigits base ds)) else none := by
  rw [fitting?, if_neg (by simpa using h)]

/-- A row of digits without a zero in front is a decimal number. -/
theorem whole?_of_ne_zero (hc : c ≠ '0') (hd : ∀ d ∈ c :: r, d.isDigit = true) :
    whole? (c :: r) = (fitting? 10 (c :: r)).map (·, c :: r) := by
  obtain ⟨hhex, hoct⟩ := number?_of_ne_zero hc r
  rw [whole?, hhex, hoct, decNumber?, List.takeWhile_eq_self_iff.mpr hd]
  rfl

/-- A row of digits with a zero in front is an octal number up to the first digit that is too
large, or else a decimal number. -/
theorem whole?_of_zero (hd : ∀ d ∈ r, d.isDigit = true) :
    whole? ('0' :: r) =
      ((fitting? 8 (r.takeWhile isOctDigit)).map (·, '0' :: r.takeWhile isOctDigit)).or
        ((fitting? 10 ('0' :: r)).map (·, '0' :: r)) := by
  have hhex : hexNumber? ('0' :: r) = none := by
    cases r with
    | nil => rfl
    | cons x r =>
      have hx := hd x (List.mem_cons_self ..)
      rw [hexNumber?_cons_cons, if_neg]
      simp only [Bool.or_eq_true, beq_iff_eq]
      rintro (rfl | rfl) <;> cases hx
  have hall : ∀ d ∈ '0' :: r, d.isDigit = true := List.forall_mem_cons.mpr ⟨by decide, hd⟩
  rw [whole?, hhex, Option.none_or, octNumber?_cons, decNumber?,
    List.takeWhile_eq_self_iff.mpr hall]

/-- A row of hexadecimal digits whose value does not fit leaves its zero alone. -/
theorem whole?_of_hexadecimal (hx : x = 'x' ∨ x = 'X') (hne : ds ≠ [])
    (hd : ∀ d ∈ ds, isHexDigit d = true) :
    whole? ('0' :: x :: ds) =
      if ofDigits 16 ds < UInt64.size then some (.ofNat (ofDigits 16 ds), '0' :: x :: ds)
      else some (0, ['0']) := by
  have hoct : octNumber? ('0' :: x :: ds) = none := by
    rcases hx with rfl | rfl <;> rfl
  have hdec : decNumber? ('0' :: x :: ds) = some (0, ['0']) := by
    rcases hx with rfl | rfl <;> rfl
  rw [whole?, hexNumber?_cons_cons, if_pos (by simpa using hx), List.takeWhile_eq_self_iff.mpr hd,
    hoct, hdec, fitting?_eq 16 hne]
  split <;> rfl

/-- A row of digits without a zero in front is read as a whole, if its value fits. -/
theorem tokensFrom_of_ne_zero (hc : c ≠ '0') (hd : ∀ d ∈ c :: r, d.isDigit = true) (o : Nat) :
    tokensFrom o (c :: r) =
      if ofDigits 10 (c :: r) < UInt64.size then
        .ok [⟨.int (.ofNat (ofDigits 10 (c :: r))), ⟨o, o + size (c :: r)⟩⟩]
      else .error (c :: r) := by
  have hnumeral : IsNumeral (c :: r) := .decimal (List.cons_ne_nil _ _) hd
  have hwhole := whole?_of_ne_zero hc hd
  rw [fitting?_eq 10 (List.cons_ne_nil _ _)] at hwhole
  split
  · next hfits =>
    rw [if_pos hfits] at hwhole
    exact tokensFrom_of_whole?_self hnumeral hwhole o
  · next hfits =>
    rw [if_neg hfits] at hwhole
    exact tokensFrom_of_whole?_eq_none hnumeral hwhole o

/-! ### Rows that fall apart -/

theorem isSplit_of_ne_zero (hc : c ≠ '0') : isSplit (c :: r) = false := by
  unfold isSplit
  split
  · next heq => exact absurd (List.cons.inj heq).1 hc
  · rfl

theorem isSplit_of_zero (hd : ∀ d ∈ r, d.isDigit = true) :
    isSplit ('0' :: r) =
      (!(r.takeWhile isOctDigit).isEmpty && !(r.dropWhile isOctDigit).isEmpty &&
        decide (ofDigits 8 (r.takeWhile isOctDigit) < UInt64.size) &&
        decide (ofDigits 10 (r.dropWhile isOctDigit) < UInt64.size)) := by
  cases r with
  | nil => rfl
  | cons x r =>
    have hx := hd x (List.mem_cons_self ..)
    rw [isSplit, if_neg]
    simp only [Bool.or_eq_true, beq_iff_eq]
    rintro (rfl | rfl) <;> cases hx

/-- A hexadecimal number that does not fit is read as zero and a name. -/
theorem tokens_of_wide (hx : x = 'x' ∨ x = 'X') (hne : ds ≠ [])
    (hd : ∀ d ∈ ds, isHexDigit d = true) (hwide : ¬ofDigits 16 ds < UInt64.size) :
    tokens ('0' :: x :: ds) =
      .ok [⟨.int 0, ⟨0, 1⟩⟩, ⟨ofWord (String.ofList (x :: ds)), ⟨1, 1 + size (x :: ds)⟩⟩] := by
  have hwhole := whole?_of_hexadecimal hx hne hd
  rw [if_neg hwide] at hwhole
  have hletter : ∀ c ∈ (x :: ds).head?, c ∉ ['u', 'U', 'l', 'L'] := by
    rintro c ⟨⟩
    rcases hx with rfl | rfl <;> decide
  have hname : Text.isName (x :: ds) = true := by
    refine Condition.isName_cons_iff.mpr ⟨?_, fun d hd' => ?_⟩
    · rcases hx with rfl | rfl <;> decide
    · exact Condition.isNameChar_of_isHexDigit (hd d hd')
  have hcut : Cut.Reads ⟨[], ofWord (String.ofList (x :: ds)), x :: ds⟩ [] := by
    refine ⟨.nil, bare_of_isNameChar ?_ _, ?_⟩
    · rcases hx with rfl | rfl <;> decide
    · rw [List.append_nil, first?_of_isName hname]
  have hrest := hcut.tokensFrom_eq 1
  rw [tokensFrom_of_separatesLast _ Separates.nil.last] at hrest
  simp only [List.append_nil, List.nil_append] at hrest
  have hzero := tokensFrom_of_whole? (s := ['0']) (.hexadecimal hx hne hd) hwhole hletter 0
  have hsize : 0 + size ['0'] = 1 := by decide
  rw [hsize, hrest] at hzero
  exact hzero

theorem unsplit_iff_of_hexadecimal (hx : x = 'x' ∨ x = 'X') (hne : ds ≠ [])
    (hd : ∀ d ∈ ds, isHexDigit d = true) :
    Unsplit ('0' :: x :: ds) ↔ isSplit ('0' :: x :: ds) = false := by
  rw [isSplit, if_pos (by simpa using hx), decide_eq_false_iff_not, Nat.not_le]
  by_cases hfits : ofDigits 16 ds < UInt64.size
  · have hwhole := whole?_of_hexadecimal hx hne hd
    rw [if_pos hfits] at hwhole
    exact iff_of_true (unsplit_of_whole?_self (.hexadecimal hx hne hd) hwhole) hfits
  · exact iff_of_false (not_unsplit_of_tokens (tokens_of_wide hx hne hd hfits)) hfits

/-- A decimal number with a zero in front is read up to the first digit that base eight does
not have, and what is left is a decimal number of its own. -/
theorem tokens_of_zero (hd : ∀ d ∈ r, d.isDigit = true) (hne : r.takeWhile isOctDigit ≠ [])
    (hfits : ofDigits 8 (r.takeWhile isOctDigit) < UInt64.size)
    (hback : r.dropWhile isOctDigit = c :: ds) :
    tokens ('0' :: r) =
      let front := '0' :: r.takeWhile isOctDigit
      let value := UInt64.ofNat (ofDigits 8 (r.takeWhile isOctDigit))
      if ofDigits 10 (c :: ds) < UInt64.size then
        .ok [⟨.int value, ⟨0, size front⟩⟩,
          ⟨.int (.ofNat (ofDigits 10 (c :: ds))), ⟨size front, size front + size (c :: ds)⟩⟩]
      else .error (c :: ds) := by
  have hall : ∀ d ∈ '0' :: r, d.isDigit = true := List.forall_mem_cons.mpr ⟨by decide, hd⟩
  have hdigits : ∀ e ∈ c :: ds, e.isDigit = true := by
    intro e he
    exact hd e ((List.dropWhile_suffix isOctDigit).mem (hback ▸ he))
  have hoct : isOctDigit c = false := of_mem_head?_dropWhile (by rw [hback]; rfl)
  have hzero : c ≠ '0' := by
    rintro rfl
    cases hoct
  have hletter : ∀ d ∈ (c :: ds).head?, d ∉ ['u', 'U', 'l', 'L'] := by
    rintro d ⟨⟩
    have hdigit := hdigits c (List.mem_cons_self ..)
    simp only [List.mem_cons, List.not_mem_nil, or_false]
    rintro (rfl | rfl | rfl | rfl) <;> cases hdigit
  have happend : '0' :: r = '0' :: r.takeWhile isOctDigit ++ c :: ds := by
    rw [← hback, List.cons_append, List.takeWhile_append_dropWhile]
  have hwhole := whole?_of_zero hd
  rw [fitting?_eq 8 hne, if_pos hfits, Option.map_some, Option.some_or] at hwhole
  have hread := tokensFrom_of_whole? (s := '0' :: r.takeWhile isOctDigit) (v := c :: ds)
    (happend ▸ .decimal (List.cons_ne_nil _ _) hall) (happend ▸ hwhole) hletter 0
  rw [tokens, happend, hread, tokensFrom_of_ne_zero hzero hdigits]
  simp only [Nat.zero_add]
  split <;> rfl

theorem unsplit_iff_of_zero (hd : ∀ d ∈ r, d.isDigit = true) :
    Unsplit ('0' :: r) ↔ isSplit ('0' :: r) = false := by
  have hall : ∀ d ∈ '0' :: r, d.isDigit = true := List.forall_mem_cons.mpr ⟨by decide, hd⟩
  have hnumeral : IsNumeral ('0' :: r) := .decimal (List.cons_ne_nil _ _) hall
  have hwhole := whole?_of_zero hd
  rw [isSplit_of_zero hd]
  by_cases hfront : r.takeWhile isOctDigit ≠ [] ∧
      ofDigits 8 (r.takeWhile isOctDigit) < UInt64.size
  · obtain ⟨hne, hfits⟩ := hfront
    cases hback : r.dropWhile isOctDigit with
    | nil =>
      have htake : r.takeWhile isOctDigit = r := by
        rw [List.takeWhile_eq_self_iff, ← List.dropWhile_eq_nil_iff, hback]
      rw [fitting?_eq 8 hne, if_pos hfits, htake] at hwhole
      exact iff_of_true (unsplit_of_whole?_self hnumeral hwhole) (by simp)
    | cons c ds =>
      have hread := tokens_of_zero hd hne hfits hback
      by_cases hlast : ofDigits 10 (c :: ds) < UInt64.size
      · simp only [if_pos hlast] at hread
        exact iff_of_false (not_unsplit_of_tokens hread) (by simp [hne, hfits, hlast])
      · simp only [if_neg hlast] at hread
        exact iff_of_true (.inl ⟨_, hread⟩) (by simp [hlast])
  · have hoct : fitting? 8 (r.takeWhile isOctDigit) = none := by
      by_cases hne : r.takeWhile isOctDigit = []
      · rw [hne]
        rfl
      · rw [fitting?_eq 8 hne, if_neg fun hfits => hfront ⟨hne, hfits⟩]
    rw [hoct, Option.map_none, Option.none_or] at hwhole
    refine iff_of_true ?_ ?_
    · cases hdec : fitting? 10 ('0' :: r) with
      | none =>
        rw [hdec] at hwhole
        exact unsplit_of_whole?_eq_none hnumeral hwhole
      | some n =>
        rw [hdec] at hwhole
        exact unsplit_of_whole?_self hnumeral hwhole
    · by_contra hsplit
      simp only [Bool.not_eq_false, Bool.and_eq_true, Bool.not_eq_true', List.isEmpty_eq_false_iff,
        decide_eq_true_eq] at hsplit
      exact hfront ⟨hsplit.1.1.1, hsplit.1.2⟩

end Readers

/-- **A row of digits is rejected or read as one number, unless it falls apart.** -/
theorem unsplit_iff (s : Text) (h : IsNumeral s) : Unsplit s ↔ isSplit s = false := by
  cases h with
  | decimal hne hd =>
    obtain ⟨c, r, rfl⟩ := List.exists_cons_of_ne_nil hne
    by_cases hc : c = '0'
    · subst hc
      exact unsplit_iff_of_zero fun d hd' => hd d (List.mem_cons_of_mem _ hd')
    · refine iff_of_true ?_ (isSplit_of_ne_zero hc)
      have hread := tokensFrom_of_ne_zero hc hd 0
      split at hread
      · exact .inr ⟨_, rfl, by rw [tokens, hread, Nat.zero_add]⟩
      · exact .inl ⟨_, hread⟩
  | hexadecimal hx hne hd => exact unsplit_iff_of_hexadecimal hx hne hd

/-- The largest number that fits, with zeros in front of it. -/
theorem unsplit_iff_largest :
    isSplit "0x00ffffffffffffffff".toList = false ∧ Unsplit "0x00ffffffffffffffff".toList := by
  have hsplit : isSplit "0x00ffffffffffffffff".toList = false := by decide
  have hdigits : "00ffffffffffffffff".toList.all isHexDigit = true := by decide
  have hnumeral : IsNumeral "0x00ffffffffffffffff".toList :=
    .hexadecimal (.inl rfl) (by decide) (List.all_eq_true.mp hdigits)
  exact ⟨hsplit, (unsplit_iff _ hnumeral).mpr hsplit⟩

/-- The next number is read as zero and a name, and the nine behind octal digits as a number of
its own. -/
theorem exists_not_unsplit :
    (IsNumeral "0x10000000000000000".toList ∧ ¬Unsplit "0x10000000000000000".toList ∧
      tokens "0x10000000000000000".toList =
        .ok [⟨.int 0, ⟨0, 1⟩⟩, ⟨.name "x10000000000000000", ⟨1, 19⟩⟩]) ∧
    IsNumeral "019".toList ∧ ¬Unsplit "019".toList ∧
      tokens "019".toList = .ok [⟨.int 1, ⟨0, 2⟩⟩, ⟨.int 9, ⟨2, 3⟩⟩] := by
  have hhex : "10000000000000000".toList.all isHexDigit = true := by decide
  have hdec : "19".toList.all Char.isDigit = true := by decide
  have hwide := tokens_of_wide (x := 'x') (.inl rfl) (by decide) (List.all_eq_true.mp hhex)
    (by decide)
  have hmixed := tokens_of_zero (List.all_eq_true.mp hdec) (by decide) (by decide) rfl
  refine ⟨⟨.hexadecimal (.inl rfl) (by decide) (List.all_eq_true.mp hhex),
    not_unsplit_of_tokens hwide, hwide⟩,
    .decimal (by decide) (List.all_eq_true.mp (by decide)), not_unsplit_of_tokens hmixed, hmixed⟩

end PixelWrap.Token
