import PixelWrap.Proofs.Overwriting
import PixelWrap.Proofs.Quoting

/-!
# Where literals end

Three scans look for the end of a string literal: the one that overwrites comments, the one that
looks for macros, and the reader of tokens.  If they did not agree, a macro would be replaced in a
literal, or a comment left out of one.  The first two go from byte to byte, and treat the byte
behind a backslash in two ways: one takes it along if there is one, the other skips it even if
there is none.  Either may so come to stand inside of a character.  All of this makes no
difference, and both of them leave a literal where the scan on characters does.

The reader of tokens finds a literal just if this is behind a quote that is not escaped, that is,
with an even number of backslashes right before it.

## Main definitions

* `Quoted.skipFrom`, `Comment.literalEnd`: the offset at which the scans on bytes leave a literal.
* `Comment.EndsLiteral`: where the mode for literals ends when comments are overwritten.
* `Quoted.backslashes`: the number of backslashes that a text ends in.

## Main results

* `Comment.literalEnd_eq_skipFrom`: the two scans on bytes agree, on whatever bytes.
* `Quoted.skipFrom_bytes`: on the bytes of a text, they agree with the scan on characters.
* `Comment.endsLiteral_iff`: so does the mode for literals.
* `Quoted.untilQuote?_eq_some_iff`: when the reader of tokens finds a literal.
* `Quoted.scans_agree`: **all scans leave a literal at the same offset.**
-/

namespace PixelWrap

open Text (bytes size)

/-! ### Scans on bytes -/

namespace Quoted

/-- The offset at which the scan for macros leaves a literal, if it has come to the offset `i`. -/
def skipFrom (bs : List UInt8) (i : Nat) : Nat :=
  if h : i < bs.length then
    if bs[i] = 92 then skipFrom bs (i + 2)
    else if bs[i] = 34 then i + 1
    else if bs[i] = 10 then i
    else skipFrom bs (i + 1)
  else bs.length
termination_by bs.length - i

end Quoted

namespace Comment

/-- The offset of the quote or line feed in front of which the scan for comments stops to copy a
literal, if it has come to the offset `i`. -/
def copyFrom (bs : List UInt8) (i : Nat) : Nat :=
  if h : i < bs.length then
    if bs[i] = 34 ∨ bs[i] = 10 then i
    else if bs[i] = 92 ∧ i + 1 < bs.length then copyFrom bs (i + 2)
    else copyFrom bs (i + 1)
  else i
termination_by bs.length - i

/-- The offset at which the scan for comments leaves a literal, if it has come to the offset `i`:
a quote belongs to the literal, a line feed does not. -/
def literalEnd (bs : List UInt8) (i : Nat) : Nat :=
  if bs[copyFrom bs i]? = some 34 then copyFrom bs i + 1 else copyFrom bs i

section Agree

variable {bs : List UInt8} {i j : Nat}

theorem literalEnd_congr (h : copyFrom bs i = copyFrom bs j) :
    literalEnd bs i = literalEnd bs j := by
  rw [literalEnd, h, literalEnd]

theorem literalEnd_of_length_le (h : bs.length ≤ i) : literalEnd bs i = i := by
  rw [literalEnd, copyFrom, dif_neg (by omega), List.getElem?_eq_none h]
  exact if_neg nofun

theorem copyFrom_succ (h : i < bs.length) (hstop : ¬(bs[i] = 34 ∨ bs[i] = 10))
    (hescape : ¬(bs[i] = 92 ∧ i + 1 < bs.length)) : copyFrom bs i = copyFrom bs (i + 1) := by
  rw [copyFrom, dif_pos h, if_neg hstop, if_neg hescape]

/-- **The two scans on bytes agree.** -/
theorem literalEnd_eq_skipFrom (hi : i ≤ bs.length) : literalEnd bs i = Quoted.skipFrom bs i := by
  fun_induction Quoted.skipFrom bs i with
  | case1 i h hescape ih =>
    have hstop : ¬(bs[i] = 34 ∨ bs[i] = 10) := by
      rw [hescape]
      decide
    by_cases hnext : i + 1 < bs.length
    · rw [← ih hnext]
      apply literalEnd_congr
      rw [copyFrom, dif_pos h, if_neg hstop, if_pos ⟨hescape, hnext⟩]
    · -- The backslash is the last byte, and only one scan skips another one behind it.
      rw [literalEnd_congr (copyFrom_succ h hstop fun hlt => hnext hlt.2),
        literalEnd_of_length_le (by omega), Quoted.skipFrom, dif_neg (by omega)]
      omega
  | case2 i h hescape hquote =>
    have hstop : copyFrom bs i = i := by rw [copyFrom, dif_pos h, if_pos (.inl hquote)]
    rw [literalEnd, hstop, List.getElem?_eq_getElem h, hquote, if_pos rfl]
  | case3 i h hescape hquote hfeed =>
    have hstop : copyFrom bs i = i := by rw [copyFrom, dif_pos h, if_pos (.inr hfeed)]
    rw [literalEnd, hstop, List.getElem?_eq_getElem h, hfeed, if_neg (by decide)]
  | case4 i h hescape hquote hfeed ih =>
    rw [← ih h]
    exact literalEnd_congr
      (copyFrom_succ h (not_or.mpr ⟨hquote, hfeed⟩) fun hlt => hescape hlt.1)
  | case5 i h => rw [literalEnd_of_length_le (by omega), Nat.le_antisymm hi (by omega)]

end Agree

end Comment

/-! ### Scans on characters -/

namespace Quoted

section Skip

variable {l : List UInt8} {b : UInt8} {c : Char}

/-- The byte is none that the scan looks for: no backslash, quote or line feed. -/
def IsOrdinary (b : UInt8) : Prop := b ≠ 92 ∧ b ≠ 34 ∧ b ≠ 10

theorem isOrdinary_of_le (hb : 128 ≤ b) : IsOrdinary b := by
  have hne : ∀ {d : UInt8}, d < 128 → b ≠ d := fun hd => by
    simpa using Comment.beq_eq_false_of_le hb hd
  exact ⟨hne (by decide), hne (by decide), hne (by decide)⟩

/-- A character that is none of the three has no byte that is one. -/
theorem isOrdinary_of_mem_utf8EncodeChar (hslash : c ≠ '\\') (hquote : c ≠ '"')
    (hfeed : c ≠ '\n') : ∀ b ∈ String.utf8EncodeChar c, IsOrdinary b := by
  intro b hb
  by_cases hc : c.utf8Size = 1
  · rw [String.utf8EncodeChar_eq_singleton hc, List.mem_singleton] at hb
    have hne : ∀ {d : Char}, d.utf8Size = 1 → c ≠ d → b ≠ d.val.toUInt8 := by
      intro d hd hne heq
      exact hne (Text.eq_of_toUInt8 hc hd (hb.symm.trans heq))
    exact ⟨hne rfl hslash, hne rfl hquote, hne rfl hfeed⟩
  · exact isOrdinary_of_le (Text.le_of_mem_utf8EncodeChar hb hc)

theorem skipFrom_length (xs : List UInt8) : skipFrom xs xs.length = xs.length := by
  rw [skipFrom, dif_neg (Nat.lt_irrefl _)]

theorem skipFrom_cons (xs : List UInt8) (b : UInt8) (ys : List UInt8) :
    skipFrom (xs ++ b :: ys) xs.length =
      if b = 92 then skipFrom (xs ++ b :: ys) (xs.length + 2)
      else if b = 34 then xs.length + 1
      else if b = 10 then xs.length
      else skipFrom (xs ++ [b] ++ ys) (xs ++ [b]).length := by
  have hlt : xs.length < (xs ++ b :: ys).length := by simp
  have hget : (xs ++ b :: ys)[xs.length] = b := by simp
  rw [skipFrom, dif_pos hlt, hget, List.length_append, List.length_singleton, ← List.append_cons]

/-- An escape is skipped with the byte behind the backslash. -/
theorem skipFrom_escape (xs : List UInt8) (b : UInt8) (ys : List UInt8) :
    skipFrom (xs ++ 92 :: b :: ys) xs.length =
      skipFrom (xs ++ [92, b] ++ ys) (xs ++ [92, b]).length := by
  rw [skipFrom_cons, if_pos rfl, List.append_assoc, List.length_append]
  rfl

/-- Bytes that the scan does not look for are skipped. -/
theorem skipFrom_append (hl : ∀ b ∈ l, IsOrdinary b) (xs ys : List UInt8) :
    skipFrom (xs ++ (l ++ ys)) xs.length = skipFrom (xs ++ l ++ ys) (xs ++ l).length := by
  induction l generalizing xs with
  | nil => rw [List.append_nil, List.nil_append]
  | cons b l ih =>
    obtain ⟨⟨hslash, hquote, hfeed⟩, hl⟩ := List.forall_mem_cons.mp hl
    rw [List.cons_append, skipFrom_cons, if_neg hslash, if_neg hquote, if_neg hfeed, ih hl,
      List.append_cons xs b l]

/-- **On the bytes of a text, the scan for macros leaves a literal where it does on its
characters.** -/
theorem skipFrom_bytes (xs : List UInt8) (r : Text) :
    skipFrom (xs ++ bytes r) xs.length = xs.length + size (split r).1 := by
  induction r using literal_induction generalizing xs with
  | nil => exact (congrArg (skipFrom · _) (List.append_nil xs)).trans (skipFrom_length xs)
  | backslash =>
    -- The scan skips one byte too many, and comes back to the end of the text.
    refine (skipFrom_cons xs 92 []).trans ?_
    rw [if_pos rfl, skipFrom, dif_neg (by simp), List.length_append]
    rfl
  | escape c r ih =>
    -- The byte behind the backslash may be the first of several, of which the scan skips the rest.
    obtain ⟨b, l, hcode, hl⟩ := Comment.exists_utf8EncodeChar_eq c
    have hlength := String.length_utf8EncodeChar c
    rw [hcode, List.length_cons] at hlength
    rw [Text.bytes_cons_of_eq_one (c := '\\') rfl, Text.bytes_cons, hcode, List.cons_append]
    refine (skipFrom_escape xs b _).trans ?_
    rw [skipFrom_append fun x hx => isOrdinary_of_le (hl x hx), ih]
    have hslash : ('\\').utf8Size = 1 := rfl
    simp only [List.length_append, List.length_cons, List.length_nil, Text.size_cons, split_escape]
    omega
  | quote r => exact skipFrom_cons xs 34 (bytes r)
  | lineFeed r => exact skipFrom_cons xs 10 (bytes r)
  | other c r hslash hquote hfeed ih =>
    rw [Text.bytes_cons, skipFrom_append (isOrdinary_of_mem_utf8EncodeChar hslash hquote hfeed),
      ih, List.length_append, String.length_utf8EncodeChar, Nat.add_assoc,
      split_other hslash hquote hfeed, Text.size_cons]

end Skip

end Quoted

/-! ### The mode for literals -/

namespace Comment

/-- When comments are overwritten, the mode for literals goes over the text `s`, and no further.
It is left behind a quote, in front of a line feed, or at the end of the text. -/
structure EndsLiteral (s rest : Text) : Prop where
  text : blankFrom .quoted (s ++ rest) = s ++ blank rest
  inside : ∀ p, p <+: s → p ≠ s → modeAfter .quoted p = .quoted
  left : (s.getLast? = some '"' ∧ modeAfter .quoted s = .code) ∨
    modeAfter .quoted s = .quoted ∧
      (rest = [] ∨ rest.head? = some '\n' ∧ modeAfter .quoted (s ++ ['\n']) = .code)

namespace EndsLiteral

variable {c : Char} {r s s' rest rest' : Text}

theorem nil : EndsLiteral [] [] where
  text := rfl
  inside _ hp hne := absurd (List.prefix_nil.mp hp) hne
  left := .inr ⟨rfl, .inl rfl⟩

theorem lineFeed (r : Text) : EndsLiteral [] ('\n' :: r) where
  text := rfl
  inside _ hp hne := absurd (List.prefix_nil.mp hp) hne
  left := .inr ⟨rfl, .inr ⟨rfl, rfl⟩⟩

/-- The first character of a literal on its own does not end it. -/
theorem inside_singleton {p : Text} (hp : p <+: [c]) (hne : p ≠ [c]) :
    modeAfter .quoted p = .quoted := by
  rcases List.prefix_cons_iff.mp hp with rfl | ⟨q, rfl, hq⟩
  · rfl
  · exact absurd (congrArg (c :: ·) (List.prefix_nil.mp hq)) hne

theorem quote (r : Text) : EndsLiteral ['"'] r where
  text := rfl
  inside _ := inside_singleton
  left := .inl ⟨rfl, rfl⟩

/-- A backslash at the end of the text escapes nothing. -/
theorem backslash : EndsLiteral ['\\'] [] where
  text := rfl
  inside _ := inside_singleton
  left := .inr ⟨rfl, .inl rfl⟩

theorem getLast?_cons (h : s.getLast? = some '"') : (c :: s).getLast? = some '"' := by
  rw [List.getLast?_cons, h]
  rfl

theorem escape (h : EndsLiteral s rest) (c : Char) : EndsLiteral ('\\' :: c :: s) rest where
  text := congrArg ('\\' :: c :: ·) h.text
  inside p hp hne := by
    rcases List.prefix_cons_iff.mp hp with rfl | ⟨q, rfl, hq⟩
    · rfl
    · rcases List.prefix_cons_iff.mp hq with rfl | ⟨q', rfl, hq'⟩
      · rfl
      · exact h.inside q' hq' fun heq => hne (congrArg ('\\' :: c :: ·) heq)
  left := by
    rcases h.left with ⟨hlast, hmode⟩ | ⟨hmode, hend⟩
    · exact .inl ⟨getLast?_cons (getLast?_cons hlast), hmode⟩
    · exact .inr ⟨hmode, hend⟩

theorem cons (h : EndsLiteral s rest) (hslash : c ≠ '\\') (hquote : c ≠ '"') (hfeed : c ≠ '\n') :
    EndsLiteral (c :: s) rest := by
  have hstep := leads_quoted_other hslash hquote hfeed
  constructor
  · rw [List.cons_append, ← List.singleton_append, hstep.text, h.text]
    rfl
  · intro p hp hne
    rcases List.prefix_cons_iff.mp hp with rfl | ⟨q, rfl, hq⟩
    · rfl
    · rw [← List.singleton_append, hstep.mode]
      exact h.inside q hq fun heq => hne (congrArg (c :: ·) heq)
  · rw [← List.singleton_append, List.append_assoc, hstep.mode, hstep.mode]
    rcases h.left with ⟨hlast, hmode⟩ | ⟨hmode, hend⟩
    · exact .inl ⟨getLast?_cons hlast, hmode⟩
    · exact .inr ⟨hmode, hend⟩

/-- The mode for literals ends where the scan for macros leaves the literal. -/
theorem of_split (r : Text) : EndsLiteral (Quoted.split r).1 (Quoted.split r).2 := by
  induction r using Quoted.literal_induction with
  | nil => exact nil
  | backslash => exact backslash
  | escape c r ih => exact ih.escape c
  | quote r => exact quote r
  | lineFeed r => exact lineFeed r
  | other c r hslash hquote hfeed ih =>
    rw [Quoted.split_other hslash hquote hfeed]
    exact ih.cons hslash hquote hfeed

/-- It ends at one place only. -/
theorem eq_of_isPrefix (h : EndsLiteral s rest) (h' : EndsLiteral s' rest')
    (heq : s ++ rest = s' ++ rest') (hle : s <+: s') : s = s' := by
  by_contra hne
  obtain ⟨t, rfl⟩ := hle
  obtain rfl : rest = t ++ rest' := by simpa using heq
  have hmode : modeAfter .quoted s = .quoted := h'.inside s (List.prefix_append s t) hne
  have ht : t ≠ [] := by
    rintro rfl
    exact hne (List.append_nil s).symm
  rcases h.left with ⟨-, hcode⟩ | ⟨-, hnil | ⟨hhead, hcode⟩⟩
  · cases hmode.symm.trans hcode
  · exact ht (List.append_eq_nil_iff.mp hnil).1
  · -- The literal would go on behind its line feed, and cannot be left there.
    obtain ⟨c, t, rfl⟩ := List.exists_cons_of_ne_nil ht
    cases Option.some.inj hhead
    by_cases hlast : t = []
    · subst hlast
      rcases h'.left with ⟨hquote, -⟩ | ⟨hquoted, -⟩
      · simp at hquote
      · cases hcode.symm.trans hquoted
    · have hquoted := h'.inside (s ++ ['\n']) ⟨t, by simp⟩ (by simpa using Ne.symm hlast)
      cases hcode.symm.trans hquoted

end EndsLiteral

/-- **The mode for literals ends where the scan for macros leaves the literal, and only there.** -/
theorem endsLiteral_iff {s rest : Text} :
    EndsLiteral s rest ↔ Quoted.split (s ++ rest) = (s, rest) := by
  constructor
  · intro h
    have hsplit := EndsLiteral.of_split (s ++ rest)
    have happend := Quoted.split_append (s ++ rest)
    have heq : s = (Quoted.split (s ++ rest)).1 := by
      rcases List.prefix_or_prefix_of_prefix (List.prefix_append s rest) ⟨_, happend⟩ with hle | hle
      · exact h.eq_of_isPrefix hsplit happend.symm hle
      · exact (hsplit.eq_of_isPrefix h happend hle).symm
    rw [← heq] at happend
    exact Prod.ext heq.symm (List.append_cancel_left happend)
  · intro h
    have hsplit := EndsLiteral.of_split (s ++ rest)
    rwa [h] at hsplit

end Comment

/-! ### The reader of tokens -/

namespace Quoted

/-- The number of backslashes that the text ends in. -/
def backslashes (t : Text) : Nat := (t.reverse.takeWhile (· == '\\')).length

theorem backslashes_cons {c : Char} (hc : c ≠ '\\') (t : Text) :
    backslashes (c :: t) = backslashes t := by
  rw [backslashes, backslashes, List.reverse_cons, List.takeWhile_append]
  split
  · next hall => simp [hc, hall]
  · rfl

/-- An escape in front of a text does not change which characters are escaped. -/
theorem even_backslashes_escape (c : Char) (t : Text) :
    Even (backslashes ('\\' :: c :: t)) ↔ Even (backslashes t) := by
  rw [backslashes, backslashes, List.reverse_cons, List.reverse_cons, List.append_assoc,
    List.takeWhile_append]
  split
  · next hall => by_cases hc : c = '\\' <;> simp [hc, hall, Nat.even_add]
  · rfl

/-- **A literal is read just if it is left behind a quote that is not escaped.** -/
theorem untilQuote?_eq_some_iff {r raw : Text} :
    Token.untilQuote? r = some raw ↔ (split r).1 = raw ++ ['"'] ∧ Even (backslashes raw) := by
  induction r using literal_induction generalizing raw with
  | nil => simp [Token.untilQuote?, split]
  | backslash =>
    refine iff_of_false (by simp [Token.untilQuote?]) fun h => ?_
    have hlast := congrArg List.getLast? h.1
    rw [List.getLast?_concat] at hlast
    cases hlast
  | escape c r ih =>
    rw [Token.untilQuote?, Option.map_eq_some_iff, split_escape]
    constructor
    · rintro ⟨raw, hraw, rfl⟩
      obtain ⟨hsplit, heven⟩ := ih.mp hraw
      exact ⟨congrArg ('\\' :: c :: ·) hsplit, (even_backslashes_escape c raw).mpr heven⟩
    · rintro ⟨hsplit, heven⟩
      cases raw with
      | nil => cases (List.cons.inj hsplit).1
      | cons d raw =>
        cases raw with
        | nil =>
          -- The quote would be the escaped character.
          simp only [List.cons_append, List.cons.injEq] at hsplit
          obtain ⟨rfl, -⟩ := hsplit
          exact absurd heven (by decide)
        | cons e raw =>
          simp only [List.cons_append, List.cons.injEq] at hsplit
          obtain ⟨rfl, rfl, hsplit⟩ := hsplit
          exact ⟨raw, ih.mpr ⟨hsplit, (even_backslashes_escape _ raw).mp heven⟩, rfl⟩
  | quote r =>
    show some [] = some raw ↔ ['"'] = raw ++ ['"'] ∧ _
    rw [List.self_eq_append_left]
    constructor
    · rintro ⟨⟩
      exact ⟨rfl, by decide⟩
    · rintro ⟨rfl, -⟩
      rfl
  | lineFeed r => simp [Token.untilQuote?, split]
  | other c r hslash hquote hfeed ih =>
    rw [Token.untilQuote?_other hslash hquote hfeed, Option.map_eq_some_iff,
      split_other hslash hquote hfeed]
    constructor
    · rintro ⟨raw, hraw, rfl⟩
      obtain ⟨hsplit, heven⟩ := ih.mp hraw
      refine ⟨congrArg (c :: ·) hsplit, ?_⟩
      rwa [backslashes_cons hslash]
    · rintro ⟨hsplit, heven⟩
      cases raw with
      | nil => exact absurd (List.cons.inj hsplit).1 hquote
      | cons d raw =>
        simp only [List.cons_append, List.cons.injEq] at hsplit
        obtain ⟨rfl, hsplit⟩ := hsplit
        rw [backslashes_cons hslash] at heven
        exact ⟨raw, ih.mpr ⟨hsplit, heven⟩, rfl⟩

/-- **All scans leave a literal at the same offset.**  When a quote opens it, both scans on bytes
leave it right behind the text `s`, wherever the quote stands, and so do the mode in which
literals are copied when comments are overwritten and the scan on characters.  The reader of
tokens finds a literal just if `s` ends in a quote with an even number of backslashes before it,
and then it takes what stands up to there. -/
theorem scans_agree (before r : Text) :
    ∃ s rest, r = s ++ rest ∧ Comment.EndsLiteral s rest ∧ split r = (s, rest) ∧
      Comment.literalEnd (bytes (before ++ '"' :: r)) (size before + 1) =
        size (before ++ '"' :: s) ∧
      skipFrom (bytes (before ++ '"' :: r)) (size before + 1) = size (before ++ '"' :: s) ∧
      ∀ k l, Token.string? ('"' :: r) = some (k, l) ↔
        ∃ raw, s = raw ++ ['"'] ∧ Even (backslashes raw) ∧
          k = .string (String.ofList raw) ∧ l = '"' :: s := by
  have hbytes : bytes (before ++ '"' :: r) = bytes (before ++ ['"']) ++ bytes r := by
    rw [← Text.bytes_append, List.append_assoc, List.singleton_append]
  have hstart : size before + 1 = (bytes (before ++ ['"'])).length := by
    rw [Text.length_bytes, Text.size_append]
    rfl
  have hskip : skipFrom (bytes (before ++ '"' :: r)) (size before + 1) =
      size (before ++ '"' :: (split r).1) := by
    rw [hbytes, hstart, skipFrom_bytes, ← hstart, Text.size_append, Text.size_cons, Nat.add_assoc]
    rfl
  refine ⟨_, _, (split_append r).symm, .of_split r, rfl, ?_, hskip, fun k l => ?_⟩
  · rw [Comment.literalEnd_eq_skipFrom, hskip]
    rw [hbytes, hstart, List.length_append]
    exact Nat.le_add_right _ _
  · rw [Token.string?, Option.map_eq_some_iff]
    constructor
    · rintro ⟨raw, hraw, ⟨⟩⟩
      obtain ⟨hsplit, heven⟩ := untilQuote?_eq_some_iff.mp hraw
      exact ⟨raw, hsplit, heven, rfl, congrArg ('"' :: ·) hsplit.symm⟩
    · rintro ⟨raw, hsplit, heven, rfl, rfl⟩
      exact ⟨raw, untilQuote?_eq_some_iff.mpr ⟨hsplit, heven⟩, by rw [hsplit]; rfl⟩

/-- The byte behind a backslash may be the first of two, or be missing. -/
example : Comment.literalEnd (bytes "x\"\\é\\".toList) 2 = 6 := by cbv

end Quoted

end PixelWrap
