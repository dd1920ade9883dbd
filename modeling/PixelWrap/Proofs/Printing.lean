import PixelWrap.Proofs.Parameters

/-!
# Tokens that are printed and read again

A name is printed as it is, a whole number in decimal with its letter, a string literal in
its quotes, and a reserved word or a symbol as the table spells it.  Tokens that are printed
with a blank between each two of them are read again one by one.  What has to be shown is
that each printed form by itself is read as its token.  For numbers that needs a first
digit other than zero, since a zero in front would start an octal number.

## Main definitions

* `Token.isEscaped`: what can stand between the quotes of a literal.
* `Token.isPrintable`: the tokens that have a printed form.
* `Token.spelling`: the printed form of a token.

## Main results

* `Token.first?_numeral`: a whole number is read from its decimal digits.
* `Token.first?_spelling`: **the printed form of a token is read as that token.**
* `Token.lex_spellings`: **lexing undoes printing.**
-/

namespace PixelWrap

/-- The characters that a symbol is written with. -/
def Symbol.spelling (s : Symbol) : Text := ((symbols.find? (·.2 == s)).map Prod.fst).getD []

/-- The word that a reserved word is written as. -/
def Keyword.spelling (k : Keyword) : String :=
  ((keywords.find? (·.2 == k)).map Prod.fst).getD ""

namespace Token

/-! ### Printed forms -/

/-- Every quote, line feed and backslash in the text is escaped, and the backslash that
escapes it is not the last character. -/
def isEscaped : Text → Bool
  | [] => true
  | '\\' :: _ :: r => isEscaped r
  | c :: r => c != '\\' && c != '"' && c != '\n' && isEscaped r

/-- The decimal digits of a number. -/
def numeral (v : UInt64) : Text := Nat.toDigits 10 v.toNat

/-- The tokens that have a printed form: all but the end of the text and the numbers with a
fraction or an exponent, where a name has to be one that is not reserved, and a literal must
not end too early. -/
def isPrintable : Token → Bool
  | .eof | .half _ | .float _ | .double _ => false
  | .name n => Text.isName n.toList && (keywords.lookup n).isNone
  | .string raw => isEscaped raw.toList
  | .int _ | .uint _ | .long _ | .keyword _ | .symbol _ => true

/-- The printed form of a token. -/
def spelling : Token → Text
  | .eof | .half _ | .float _ | .double _ => []
  | .name n => n.toList
  | .int v => numeral v
  | .uint v => numeral v ++ ['u']
  | .long v => numeral v ++ ['l']
  | .string raw => '"' :: (raw.toList ++ ['"'])
  | .keyword k => k.spelling.toList
  | .symbol s => s.spelling

/-! ### Whole numbers -/

theorem digitValue_digitChar {d : Nat} (h : d < 10) : digitValue d.digitChar = d := by
  have hall : ∀ d < 10, digitValue d.digitChar = d := by decide
  exact hall d h

/-- The decimal digits of a number spell that number. -/
theorem ofDigits_toDigits (n : Nat) : ofDigits 10 (Nat.toDigits 10 n) = n := by
  induction n using Nat.strongRecOn with
  | ind n ih =>
    rw [Nat.toDigits_eq_if (by decide)]
    split
    · next h =>
      show 0 * 10 + digitValue n.digitChar = n
      rw [digitValue_digitChar h]
      omega
    · next h =>
      rw [ofDigits_concat, ih (n / 10) (by omega), digitValue_digitChar (by omega)]
      omega

/-- Only zero has a zero in front. -/
theorem head_toDigits_ne {n : Nat} (hn : n ≠ 0) : ∀ c ∈ (Nat.toDigits 10 n).head?, c ≠ '0' := by
  induction n using Nat.strongRecOn with
  | ind n ih =>
    rw [Nat.toDigits_eq_if (by decide)]
    split
    · next h =>
      have hall : ∀ d < 10, d ≠ 0 → d.digitChar ≠ '0' := by decide
      rintro c ⟨⟩
      exact hall n h hn
    · next h =>
      intro c hc
      rw [List.head?_append_of_ne_nil _ Nat.toDigits_ne_nil] at hc
      exact ih (n / 10) (by omega) (by omega) c hc

/-- No number goes on with the text. -/
def EndsNumeral (t : Text) : Prop :=
  ∀ c ∈ t.head?, c.isDigit = false ∧ c ∉ ['.', 'e', 'E', 'x', 'X']

variable {t : Text}

theorem isDigit_of_mem_numeral {v : UInt64} {c : Char} (h : c ∈ numeral v) : c.isDigit = true :=
  Nat.isDigit_of_mem_toDigits (by decide) (by decide) h

theorem numeral_ne_nil (v : UInt64) : numeral v ≠ [] := Nat.toDigits_ne_nil

/-- The digits of a number are read up to its end. -/
theorem span_numeral (v : UInt64) (ht : EndsNumeral t) :
    (numeral v ++ t).takeWhile Char.isDigit = numeral v ∧
      (numeral v ++ t).dropWhile Char.isDigit = t := by
  have hdigits : ∀ c ∈ numeral v, c.isDigit = true := fun _ => isDigit_of_mem_numeral
  have hend : ∀ c ∈ t.head?, c.isDigit = false := fun c hc => (ht c hc).1
  exact ⟨Condition.takeWhile_append_of_head hdigits hend,
    Condition.dropWhile_append_of_head hdigits hend⟩

/-- A whole number has neither a fraction nor an exponent. -/
theorem float?_numeral (v : UInt64) (ht : EndsNumeral t) : float? (numeral v ++ t) = none := by
  apply float?_eq_none
  rw [(span_numeral v ht).2]
  intro c hc hmem
  exact (ht c hc).2 (List.mem_append_left ['x', 'X'] hmem)

theorem decNumber?_numeral (v : UInt64) (ht : EndsNumeral t) :
    decNumber? (numeral v ++ t) = some (v, numeral v) := by
  have hfits : fitting? 10 (numeral v) = some v := by
    rw [fitting?, if_neg (by simpa using numeral_ne_nil v), numeral, ofDigits_toDigits,
      if_pos v.toNat_lt, UInt64.ofNat_toNat]
  rw [decNumber?, (span_numeral v ht).1, hfits]
  rfl

/-- A number in decimal is read as such: no zero in front of it starts a number of another
base, unless the number is zero itself. -/
theorem whole?_numeral (v : UInt64) (ht : EndsNumeral t) :
    whole? (numeral v ++ t) = some (v, numeral v) := by
  have hother : hexNumber? (numeral v ++ t) = none ∧ octNumber? (numeral v ++ t) = none := by
    by_cases hv : v.toNat = 0
    · have hzero : numeral v = ['0'] := by
        rw [numeral, hv]
        rfl
      rw [hzero, List.singleton_append]
      cases t with
      | nil => exact ⟨rfl, rfl⟩
      | cons c r =>
        obtain ⟨hdigit, hc⟩ := ht c rfl
        simp only [List.mem_cons, not_or] at hc
        have hoct : ¬isOctDigit c = true := by
          intro hoct
          rw [(Condition.isOctDigit_iff.mp hoct).1] at hdigit
          cases hdigit
        constructor
        · rw [hexNumber?_cons_cons, if_neg (by simp [hc])]
        · rw [octNumber?_cons, List.takeWhile_cons_of_neg hoct]
          rfl
    · obtain ⟨c, r, hcr⟩ := List.exists_cons_of_ne_nil (numeral_ne_nil v)
      have hc : c ≠ '0' := head_toDigits_ne hv c (by rw [← numeral, hcr]; rfl)
      rw [hcr, List.cons_append]
      exact number?_of_ne_zero hc _
  rw [whole?, hother.1, hother.2, decNumber?_numeral v ht]
  rfl

/-- **A whole number is read from its decimal digits** and the letter behind them. -/
theorem first?_numeral (v : UInt64) (t : Text) : EndsNumeral t →
    first? (numeral v ++ t) =
      match t with
      | c :: _ =>
        if c == 'u' || c == 'U' then some (.uint v, numeral v ++ [c])
        else if c == 'l' || c == 'L' then some (.long v, numeral v ++ [c])
        else some (.int v, numeral v)
      | [] => some (.int v, numeral v) := by
  intro ht
  rw [first?, float?_numeral v ht, Option.none_or, int?_eq, whole?_numeral v ht]
  simp only [Option.bind_some, List.drop_left]
  cases t with
  | nil => rfl
  | cons c r =>
    dsimp only
    repeat' split
    all_goals rfl

/-! ### All tokens -/

/-- An escaped text ends where its quote stands. -/
theorem untilQuote?_of_isEscaped {raw : Text} (h : isEscaped raw = true) (r : Text) :
    untilQuote? (raw ++ '"' :: r) = some raw := by
  fun_induction isEscaped raw with
  | case1 => rfl
  | case2 c raw ih =>
    rw [List.cons_append, List.cons_append, untilQuote?, ih h]
    rfl
  | case3 c raw _ ih =>
    simp only [Bool.and_eq_true, bne_iff_ne, ne_eq] at h
    obtain ⟨⟨⟨hescape, hquote⟩, hline⟩, hraw⟩ := h
    rw [List.cons_append, untilQuote?_other hescape hquote hline, ih hraw]
    rfl

theorem first?_keyword (k : Keyword) :
    first? k.spelling.toList = some (.keyword k, k.spelling.toList) := by
  have hname : Text.isName k.spelling.toList = true := by cases k <;> decide
  have hword : ofWord k.spelling = .keyword k := by cases k <;> decide
  rw [first?_of_isName hname, String.ofList_toList, hword]

theorem first?_symbol (s : Symbol) : first? s.spelling = some (.symbol s, s.spelling) := by
  cases s <;> decide

/-- **The printed form of a token is read as that token.** -/
theorem first?_spelling {k : Token} (h : k.isPrintable = true) :
    first? k.spelling = some (k, k.spelling) := by
  have hletter : ∀ {c : Char}, c = 'u' ∨ c = 'l' → EndsNumeral [c] := by
    rintro c hc d ⟨⟩
    rcases hc with rfl | rfl <;> decide
  cases k with
  | eof | half | float | double => cases h
  | name n =>
    simp only [isPrintable, Bool.and_eq_true, Option.isNone_iff_eq_none] at h
    rw [spelling, first?_of_isName h.1, String.ofList_toList, ofWord, h.2]
  | int v =>
    have hread := first?_numeral v [] (by simp [EndsNumeral])
    rwa [List.append_nil] at hread
  | uint v => exact first?_numeral v _ (hletter (.inl rfl))
  | long v => exact first?_numeral v _ (hletter (.inr rfl))
  | string raw =>
    rw [spelling, first?_quote, string?, untilQuote?_of_isEscaped h]
    simp
  | keyword k => exact first?_keyword k
  | symbol s => exact first?_symbol s

theorem exists_spelled {ks : List Token} (h : ∀ k ∈ ks, k.isPrintable = true) :
    ∃ ss : List Spelled, ss.map Spelled.token = ks ∧ ss.map Spelled.text = ks.map spelling := by
  induction ks with
  | nil => exact ⟨[], rfl, rfl⟩
  | cons k ks ih =>
    obtain ⟨ss, htokens, htexts⟩ := ih fun k hk => h k (List.mem_cons_of_mem _ hk)
    have hk := first?_spelling (h k (List.mem_cons_self ..))
    refine ⟨⟨k, k.spelling, hk⟩ :: ss, ?_, ?_⟩
    · rw [List.map_cons, htokens]
    · rw [List.map_cons, htexts, List.map_cons]

/-- Printed tokens are read one by one. -/
theorem tokens_spellings {ks : List Token} (h : ∀ k ∈ ks, k.isPrintable = true) :
    ∃ ls, tokens (Text.join [' '] (ks.map spelling)) = .ok ls ∧ ls.map Lexeme.token = ks := by
  obtain ⟨ss, htokens, htexts⟩ := exists_spelled h
  have hshuts : Shuts [] := ⟨nofun, nofun⟩
  have hreading : Reading (spaced [] ss) [] := reading_spaced .nil hshuts
  refine ⟨lexemes 0 (spaced [] ss), ?_, ?_⟩
  · rw [← htexts]
    show tokensFrom 0 (print ss) = _
    rw [← raw_spaced_nil, ← hreading.tokensFrom_eq Separates.nil.last 0, List.append_nil]
  · rw [map_token_lexemes, map_token_spaced, htokens]

/-- **Lexing undoes printing.**  Tokens that are printed with a blank between each two of
them are read again, all of them and in the same order, and then the end of the text. -/
theorem lex_spellings (ks : List Token) (h : ∀ k ∈ ks, k.isPrintable = true) (p : Preprocessed)
    (hp : p.code = Text.join [' '] (ks.map spelling)) :
    ∃ ls, lex p = .ok ls ∧ ls.map Lexeme.token = ks ++ [.eof] := by
  obtain ⟨ls, hls, htokens⟩ := tokens_spellings h
  refine ⟨ls ++ [endMark p.code], ?_, ?_⟩
  · rw [lex, hp, hls]
    rfl
  · rw [List.map_append, htokens]
    rfl

/-- Slashes and signs that would run into each other, numbers in front of a point and of a
letter of an exponent, and a literal with an escaped quote. -/
def neighbours : List Token :=
  [.symbol .slash, .symbol .slash, .symbol .asterisk, .symbol .equals, .symbol .equals,
    .int 0, .symbol .period, .long 18446744073709551615, .name "e1", .uint 7,
    .string "a\\\"b", .keyword .inputOutput, .name "inouts", .symbol .exclamation]

theorem lex_spellings_neighbours :
    ∃ ls, lex (Decl.unprocessed
        "/ / * = = 0 . 18446744073709551615l e1 7u \"a\\\"b\" inout inouts !".toList) = .ok ls ∧
      ls.map Lexeme.token = neighbours ++ [.eof] :=
  lex_spellings neighbours (by decide) (Decl.unprocessed _) (by decide)

end Token

end PixelWrap
