import Mathlib.Tactic.Common
import PixelWrap.Proofs.Joins
import PixelWrap.Proofs.Readers

/-!
# The tokens of a text as it is written

Tokens are read after comments have been overwritten.  Here they are found in the text as
it is written: the text is cut into tokens with the blanks and comments in front of each,
and each token stands in front of the next cut in such a way that it is read from there.
A stretch of cuts can be taken out of a text and put into another one.

## Main definitions

* `Token.Cut`: a token, the characters that it takes up and the gap in front of it.
* `Token.Cut.Stands`: a cut is read in front of a text.
* `Token.Standing`: cuts one after the other are read in front of a text.
* `Token.raw`, `Token.written`: the text that cuts make up, with and without the first gap.
* `Token.lexemes`: the tokens of cuts and where they stand.

## Main results

* `Token.tokensFrom_blank_eq_ok_iff`: the tokens of a text are those of its cuts.
* `Token.Standing.follow`: cuts are read in the same way in front of another text.
-/

namespace PixelWrap

open Comment (blank blankFrom)

namespace Comment

/-! ### Comments in front of a token -/

theorem isBlank_of_mem_pair : ∀ x ∈ [' ', ' '], isBlank x = true :=
  List.all_eq_true.mp (by decide : [' ', ' '].all isBlank = true)

/-- Blanks in front of a character that is no blank go to the gap as a whole. -/
theorem exists_of_blanks_append {a s g r : Text} {c : Char} (ha : ∀ x ∈ a, isBlank x = true)
    (hc : isBlank c = false) (h : a ++ s = g ++ c :: r) : ∃ g₁, g = a ++ g₁ ∧ s = g₁ ++ c :: r := by
  rcases Text.cases_of_append_eq h with hs | ⟨z, rfl, -⟩
  · exact hs
  · rw [ha c (by simp)] at hc
    cases hc

/-- What stands in front of a character that is no blank is overwritten or blank. -/
theorem exists_of_blankFrom {m : Mode} {t g r : Text} {c : Char} (hm : m ≠ .quoted)
    (h : blankFrom m t = g ++ c :: r) (hg : ∀ x ∈ g, isBlank x = true) (hc : isBlank c = false) :
    ∃ g' t', t = g' ++ c :: t' ∧ Leads m g' g .code := by
  fun_induction blankFrom m t generalizing g with
  | case1 => cases g <;> cases h
  | case2 s ih =>
    obtain ⟨g₁, rfl, hs⟩ := exists_of_blanks_append isBlank_of_mem_pair hc h
    obtain ⟨g', t', rfl, hlead⟩ := ih (by decide) hs (List.forall_mem_append.mp hg).2
    exact ⟨_, t', rfl, leads_openLine.append hlead⟩
  | case3 s ih =>
    obtain ⟨g₁, rfl, hs⟩ := exists_of_blanks_append isBlank_of_mem_pair hc h
    obtain ⟨g', t', rfl, hlead⟩ := ih (by decide) hs (List.forall_mem_append.mp hg).2
    exact ⟨_, t', rfl, leads_openBlock.append hlead⟩
  | case4 d s h₁ h₂ ih =>
    cases g with
    | nil =>
      obtain ⟨rfl, -⟩ := List.cons.inj h
      exact ⟨[], s, rfl, .nil _⟩
    | cons x g =>
      obtain ⟨rfl, hs⟩ := List.cons.inj h
      obtain ⟨hd, hg⟩ := List.forall_mem_cons.mp hg
      have hquote : d ≠ '"' := by
        rintro rfl
        cases hd
      have hslash : d ≠ '/' := by
        rintro rfl
        cases hd
      have hmode : (d == '"') = false := beq_eq_false_iff_ne.mpr hquote
      rw [hmode] at ih hs
      obtain ⟨g', t', rfl, hlead⟩ := ih (by decide) hs hg
      exact ⟨d :: g', t', rfl, (leads_code hslash hquote).append hlead⟩
  | case5 d s ih =>
    obtain ⟨g₁, rfl, hs⟩ := exists_of_blanks_append (fun _ => isBlank_of_mem_blankChar) hc h
    obtain ⟨g', t', rfl, hlead⟩ := ih (by split <;> decide) hs (List.forall_mem_append.mp hg).2
    exact ⟨d :: g', t', rfl, (leads_line_char d).append hlead⟩
  | case6 s ih =>
    obtain ⟨g₁, rfl, hs⟩ := exists_of_blanks_append isBlank_of_mem_pair hc h
    obtain ⟨g', t', rfl, hlead⟩ := ih (by decide) hs (List.forall_mem_append.mp hg).2
    exact ⟨_, t', rfl, leads_closeBlock.append hlead⟩
  | case7 d s h₁ ih =>
    obtain ⟨g₁, rfl, hs⟩ := exists_of_blanks_append (fun _ => isBlank_of_mem_blankChar) hc h
    obtain ⟨g', t', rfl, hlead⟩ := ih (by decide) hs (List.forall_mem_append.mp hg).2
    refine ⟨d :: g', t', rfl, hlead.cons_block fun hstar y r hr => ?_⟩
    -- The comment goes on, so the star is not in front of a slash.
    obtain ⟨x, g', rfl⟩ := List.exists_cons_of_ne_nil (hlead.ne_nil (by decide))
    obtain ⟨rfl, -⟩ := List.cons.inj hr
    exact h₁ _ hstar rfl
  | case8 => exact absurd rfl hm
  | case9 => exact absurd rfl hm

/-- What is left of a text is left of what stands behind the gap. -/
theorem exists_of_blank_append {t g r : Text} {c : Char} (h : blank t = g ++ c :: r)
    (hg : ∀ x ∈ g, isBlank x = true) (hc : isBlank c = false) :
    ∃ gap t', t = gap ++ c :: t' ∧ Leads .code gap g .code ∧ blank (c :: t') = c :: r := by
  obtain ⟨gap, t', rfl, hgap⟩ := exists_of_blankFrom (by decide) h hg hc
  exact ⟨gap, t', rfl, hgap, List.append_cancel_left ((hgap.text (c :: t')).symm.trans h)⟩

theorem exists_of_blank_eq_cons {t r : Text} {c : Char} (h : blank t = c :: r)
    (hc : isBlank c = false) : ∃ t', t = c :: t' := by
  obtain ⟨g, t', rfl, hlead⟩ := exists_of_blankFrom (g := []) (by decide) h nofun hc
  have hnil : g = [] := blankFrom_eq_nil_iff.mp hlead.blankFrom_eq
  exact ⟨t', by rw [hnil, List.nil_append]⟩

/-! ### Tokens between comments -/

theorem kept_of_blank {c : Char} {t r : Text} (h : blank (c :: t) = c :: r) : Kept c t := by
  rintro rfl
  cases t with
  | nil => exact ⟨nofun, nofun⟩
  | cons d t =>
    constructor
    · rintro ⟨⟩
      cases h
    · rintro ⟨⟩
      cases h

/-- No comment is left. -/
theorem blank_ne_comment {t r : Text} : blank t ≠ '/' :: '/' :: r ∧ blank t ≠ '/' :: '*' :: r := by
  have hne : ∀ {d : Char}, isBlank d = false → blank t = '/' :: d :: r → d ≠ '/' ∧ d ≠ '*' := by
    intro d hd h
    obtain ⟨t', rfl⟩ := exists_of_blank_eq_cons h rfl
    have hkept := kept_of_blank h
    rw [blank_cons (by decide) hkept] at h
    obtain ⟨t'', rfl⟩ := exists_of_blank_eq_cons (List.cons.inj h).2 hd
    constructor
    · rintro rfl
      exact (hkept rfl).1 rfl
    · rintro rfl
      exact (hkept rfl).2 rfl
  exact ⟨fun h => (hne rfl h).1 rfl, fun h => (hne rfl h).2 rfl⟩

section Tokens

open Token

variable {t r w : Text}

theorem exists_of_blank_solid (h : blank t = w ++ r) (hw : ∀ c ∈ w, isSolid c = true) :
    ∃ t', t = w ++ t' ∧
      ∀ y, y.head? = t'.head? ∨ w.getLast? ≠ some '/' → blank (w ++ y) = w ++ blank y := by
  induction w generalizing t with
  | nil => exact ⟨t, rfl, fun y _ => rfl⟩
  | cons c w ih =>
    have hc := hw c (List.mem_cons_self ..)
    simp only [isSolid, Bool.and_eq_true, Bool.not_eq_true', bne_iff_ne] at hc
    obtain ⟨t₁, rfl⟩ := exists_of_blank_eq_cons h hc.1
    have hkept := kept_of_blank h
    rw [blank_cons hc.2 hkept] at h
    obtain ⟨t', rfl, hall⟩ := ih (List.cons.inj h).2 fun d hd => hw d (List.mem_cons_of_mem _ hd)
    refine ⟨t', rfl, fun y hy => ?_⟩
    cases w with
    | nil =>
      refine blank_cons hc.2 fun hslash => ?_
      rcases hy with hy | hy
      · change y.head? ≠ _ ∧ y.head? ≠ _
        rw [hy]
        exact hkept hslash
      · exact absurd (congrArg some hslash) hy
    | cons d w =>
      have hkept' : Kept c (d :: w ++ y) := hkept
      rw [List.cons_append, blank_cons hc.2 hkept', hall y hy]
      rfl

/-- A literal is copied up to its closing quote. -/
theorem leads_quoted {t raw : Text} (h : untilQuote? t = some raw) :
    Leads .quoted (raw ++ ['"']) (raw ++ ['"']) .code := by
  induction t using Quoted.literal_induction generalizing raw with
  | nil | backslash | lineFeed => cases h
  | escape c r ih =>
    obtain ⟨raw, hr, rfl⟩ := Option.map_eq_some_iff.mp h
    exact (leads_escape c).append (ih hr)
  | quote r =>
    cases h
    exact ⟨fun _ => rfl, fun _ => rfl⟩
  | other c r hslash hquote hfeed ih =>
    rw [untilQuote?_other hslash hquote hfeed] at h
    obtain ⟨raw, hr, rfl⟩ := Option.map_eq_some_iff.mp h
    exact (leads_quoted_other hslash hquote hfeed).append (ih hr)

/-- A literal is closed at the same place. -/
theorem untilQuote?_blankFrom (t : Text) : untilQuote? (blankFrom .quoted t) = untilQuote? t := by
  induction t using Quoted.literal_induction with
  | nil | backslash | quote | lineFeed => rfl
  | escape c r ih => rw [blankFrom, untilQuote?, untilQuote?, ih]
  | other c r hslash hquote hfeed ih =>
    have hcopy : blankFrom .quoted (c :: r) = c :: blankFrom .quoted r :=
      (leads_quoted_other hslash hquote hfeed).text r
    rw [hcopy, untilQuote?_other hslash hquote hfeed, untilQuote?_other hslash hquote hfeed, ih]

/-- **A token stands in the text as it is written.** -/
theorem exists_of_blank_token (h : blank t = w ++ r)
    (hw : (∀ c ∈ w, isSolid c = true) ∨
      ∃ raw, w = '"' :: (raw ++ ['"']) ∧ ∀ v, untilQuote? (raw ++ '"' :: v) = some raw) :
    ∃ t', t = w ++ t' ∧
      ∀ y, y.head? = t'.head? ∨ w.getLast? ≠ some '/' → blank (w ++ y) = w ++ blank y := by
  rcases hw with hw | ⟨raw, rfl, hraw⟩
  · exact exists_of_blank_solid h hw
  · obtain ⟨t₁, rfl⟩ := exists_of_blank_eq_cons h rfl
    have hquoted : ∀ s : Text, blank ('"' :: s) = '"' :: blankFrom .quoted s := fun s => rfl
    rw [hquoted, List.cons_append] at h
    have hrest : blankFrom .quoted t₁ = raw ++ '"' :: r := by
      simpa using (List.cons.inj h).2
    have hraw' : untilQuote? t₁ = some raw := by rw [← untilQuote?_blankFrom, hrest, hraw r]
    obtain ⟨⟨t', rfl⟩, -⟩ := exists_of_untilQuote? hraw'
    refine ⟨t', by simp, fun y _ => ?_⟩
    rw [List.cons_append, hquoted, (leads_quoted hraw').text]
    rfl

end Tokens

end Comment

namespace Token

/-! ### Gaps in text without comments -/

section Gaps

variable {g s r : Text} {c : Char}

theorem splitGap_append_of_blank (hg : ∀ x ∈ g, isBlank x = true) :
    splitGap (g ++ s) = (g ++ (splitGap s).1, (splitGap s).2) := by
  induction g with
  | nil => rfl
  | cons c g ih =>
    have hc := hg c (List.mem_cons_self ..)
    have hslash : c ≠ '/' := by
      rintro rfl
      cases hc
    rw [List.cons_append, splitGap, if_pos hc, ih fun x hx => hg x (List.mem_cons_of_mem _ hx)]
    · rfl
    · exact fun _ h => absurd h hslash
    · exact fun _ h => absurd h hslash

theorem splitGap_of_ne_comment (hc : isBlank c = false)
    (hs : ∀ u, c :: r ≠ '/' :: '/' :: u ∧ c :: r ≠ '/' :: '*' :: u) :
    splitGap (c :: r) = ([], c :: r) := by
  rw [splitGap, hc]
  · rfl
  · rintro u rfl rfl
    exact (hs u).1 rfl
  · rintro u rfl rfl
    exact (hs u).2 rfl

theorem tokensFrom_of_blank (o : Nat) (hs : ∀ x ∈ s, isBlank x = true) :
    tokensFrom o s = .ok [] := by
  have hgap : splitGap s = (s, []) := by
    have happend := splitGap_append_of_blank (s := []) hs
    rw [List.append_nil, splitGap, List.append_nil] at happend
    exact happend
  rw [tokensFrom]
  split
  · rfl
  · next heq =>
    rw [hgap] at heq
    cases heq

/-- One token is read behind the gap. -/
theorem tokensFrom_of_splitGap (o : Nat) {t : Text} (hgap : splitGap t = (g, c :: r)) :
    tokensFrom o t =
      if startsComment (c :: r) then .error (c :: r)
      else
        match first? (c :: r) with
        | none => .error (c :: r)
        | some (k, l) =>
          (tokensFrom (o + Text.size g + Text.size l) (r.drop (l.length - 1))).map
            (⟨k, ⟨o + Text.size g, o + Text.size g + Text.size l⟩⟩ :: ·) := by
  rw [tokensFrom]
  split
  · next heq =>
    rw [hgap] at heq
    cases heq
  · next heq =>
    rw [hgap] at heq
    cases heq
    rfl

theorem startsComment_eq_false {t : Text} (h : ∀ u, t ≠ '/' :: '*' :: u) :
    startsComment t = false := by
  rw [startsComment, Bool.eq_false_iff, Ne, List.isPrefixOf_iff_prefix]
  rintro ⟨u, hu⟩
  exact h u hu.symm

/-- One token is read behind the blanks. -/
theorem tokensFrom_append (o : Nat) (hg : ∀ x ∈ g, isBlank x = true) (hc : isBlank c = false)
    (hs : ∀ u, c :: r ≠ '/' :: '/' :: u ∧ c :: r ≠ '/' :: '*' :: u) :
    tokensFrom o (g ++ c :: r) =
      match first? (c :: r) with
      | none => .error (c :: r)
      | some (k, l) =>
        (tokensFrom (o + Text.size g + Text.size l) (r.drop (l.length - 1))).map
          (⟨k, ⟨o + Text.size g, o + Text.size g + Text.size l⟩⟩ :: ·) := by
  have hgap : splitGap (g ++ c :: r) = (g, c :: r) := by
    rw [splitGap_append_of_blank hg, splitGap_of_ne_comment hc hs, List.append_nil]
  rw [tokensFrom_of_splitGap o hgap, startsComment_eq_false fun u => (hs u).2]
  rfl

end Gaps

/-! ### Cuts -/

/-- The text is overwritten with blanks, or blank itself, whatever follows. -/
structure IsGap (g : Text) : Prop where
  blank : ∀ x ∈ Comment.blank g, isBlank x = true
  append : ∀ y, Comment.blank (g ++ y) = Comment.blank g ++ Comment.blank y

/-- A token, the characters that it takes up and the blanks and comments in front of it. -/
structure Cut where
  /-- The blanks and comments in front of the token. -/
  gap : Text
  /-- The token. -/
  token : Token
  /-- The characters of the token. -/
  text : Text
  deriving DecidableEq, Repr

/-- The cut is read in front of a text: its gap is a gap whatever follows, its characters
start no comment with what follows, and they are read as its token. -/
structure Cut.Stands (c : Cut) (t : Text) : Prop where
  isGap : IsGap c.gap
  text_append : ∀ y, y.head? = t.head? ∨ c.text.getLast? ≠ some '/' →
    blank (c.text ++ y) = c.text ++ blank y
  reads : first? (c.text ++ blank t) = some (c.token, c.text)

/-- The text that cuts make up. -/
def raw (cs : List Cut) : Text := cs.flatMap fun c => c.gap ++ c.text

/-- The text that cuts make up, without the first gap. -/
def written (cs : List Cut) : Text := (raw cs).drop ((cs.head?.map Cut.gap).getD []).length

/-- The text that cuts make up, with comments overwritten. -/
def blanked (cs : List Cut) : Text := cs.flatMap fun c => blank c.gap ++ c.text

/-- The cuts are read one after the other in front of a text. -/
def Standing : List Cut → Text → Prop
  | [], _ => True
  | c :: cs, t => c.Stands (raw cs ++ t) ∧ Standing cs t

/-- The tokens of cuts, of which the first one starts at `o`. -/
def lexemes (o : Nat) : List Cut → List Lexeme
  | [] => []
  | c :: cs =>
    ⟨c.token, ⟨o + Text.size c.gap, o + Text.size c.gap + Text.size c.text⟩⟩ ::
      lexemes (o + Text.size c.gap + Text.size c.text) cs

section Cuts

variable {c : Cut} {cs ds : List Cut} {t v : Text}

@[simp] theorem raw_nil : raw [] = [] := rfl

@[simp] theorem raw_cons : raw (c :: cs) = c.gap ++ (c.text ++ raw cs) := by
  simp [raw]

@[simp] theorem raw_append : raw (cs ++ ds) = raw cs ++ raw ds := by
  simp [raw]

@[simp] theorem blanked_nil : blanked [] = [] := rfl

@[simp] theorem blanked_cons : blanked (c :: cs) = blank c.gap ++ (c.text ++ blanked cs) := by
  simp [blanked]

@[simp] theorem blanked_append : blanked (cs ++ ds) = blanked cs ++ blanked ds := by
  simp [blanked]

@[simp] theorem written_cons : written (c :: cs) = c.text ++ raw cs := by
  simp [written]

@[simp] theorem lexemes_append (o : Nat) :
    lexemes o (cs ++ ds) = lexemes o cs ++ lexemes (o + Text.size (raw cs)) ds := by
  induction cs generalizing o with
  | nil => rfl
  | cons c cs ih => simp [lexemes, ih, Nat.add_assoc]

@[simp] theorem map_token_lexemes (o : Nat) :
    (lexemes o cs).map Lexeme.token = cs.map Cut.token := by
  induction cs generalizing o with
  | nil => rfl
  | cons c cs ih => simp [lexemes, ih]

theorem standing_append : Standing (cs ++ ds) t ↔ Standing cs (raw ds ++ t) ∧ Standing ds t := by
  induction cs with
  | nil => simp [Standing]
  | cons c cs ih => simp [Standing, ih, and_assoc]

theorem Cut.Stands.text_ne_nil (h : c.Stands t) : c.text ≠ [] := (exists_of_first? h.reads).2.1

theorem Cut.Stands.blank_append (h : c.Stands t) :
    blank (c.gap ++ (c.text ++ t)) = blank c.gap ++ (c.text ++ blank t) := by
  rw [h.isGap.append, h.text_append t (.inl rfl)]

/-- Comments stand in the gaps only. -/
theorem Standing.blank_append (h : Standing cs t) :
    blank (raw cs ++ t) = blanked cs ++ blank t := by
  induction cs with
  | nil => rfl
  | cons c cs ih =>
    rw [raw_cons, List.append_assoc, List.append_assoc, h.1.blank_append, ih h.2]
    simp

/-- Behind the blanks of a text no comment starts. -/
theorem exists_of_not_blank (h : ¬∀ x ∈ blank t, isBlank x = true) :
    ∃ g x r, blank t = g ++ x :: r ∧ (∀ y ∈ g, isBlank y = true) ∧ isBlank x = false ∧
      ∀ u, x :: r ≠ '/' :: '/' :: u ∧ x :: r ≠ '/' :: '*' :: u := by
  have hg : ∀ y ∈ (blank t).takeWhile isBlank, isBlank y = true := fun y => List.mem_takeWhile_imp
  cases hd : (blank t).dropWhile isBlank with
  | nil => exact absurd (List.dropWhile_eq_nil_iff.mp hd) h
  | cons x r =>
    have hx : isBlank x = false := by
      have hhead := List.head?_dropWhile_not isBlank (blank t)
      rw [hd] at hhead
      simpa using hhead
    have hsplit : blank t = (blank t).takeWhile isBlank ++ x :: r := by
      rw [← hd, List.takeWhile_append_dropWhile]
    refine ⟨_, x, r, hsplit, hg, hx, ?_⟩
    obtain ⟨gap, t₁, rfl, -, hrest⟩ := Comment.exists_of_blank_append hsplit hg hx
    rw [← hrest]
    exact fun u => Comment.blank_ne_comment

/-- What is read in front of a text that is not all blank is a cut. -/
theorem exists_cut {g r l : Text} {k : Token} {x : Char} (h : blank t = g ++ x :: r)
    (hg : ∀ y ∈ g, isBlank y = true) (hx : isBlank x = false) (hk : first? (x :: r) = some (k, l)) :
    ∃ (c : Cut) (t' : Text), t = c.gap ++ (c.text ++ t') ∧ c.Stands t' := by
  obtain ⟨gap, t₁, rfl, hgap, hrest⟩ := Comment.exists_of_blank_append h hg hx
  have hblank : blank gap = g := hgap.blankFrom_eq
  obtain ⟨⟨w, hw⟩, -, hl⟩ := exists_of_first? hk
  obtain ⟨t', ht', hall⟩ := Comment.exists_of_blank_token (hrest.trans hw.symm) hl
  have hread : first? (l ++ blank t') = some (k, l) := by
    rw [← hall t' (.inl rfl), ← ht', hrest, hk]
  have hisGap : IsGap gap := by
    refine ⟨by rwa [hblank], fun y => ?_⟩
    rw [hblank]
    exact hgap.text y
  exact ⟨⟨gap, k, l⟩, t', by rw [ht'], hisGap, hall, hread⟩

theorem Cut.Stands.tokensFrom_eq (h : c.Stands t) (o : Nat) :
    tokensFrom o (blank (c.gap ++ (c.text ++ t))) =
      (tokensFrom (o + Text.size c.gap + Text.size c.text) (blank t)).map
        (⟨c.token, ⟨o + Text.size c.gap, o + Text.size c.gap + Text.size c.text⟩⟩ :: ·) := by
  have hsize : Text.size (blank c.gap) = Text.size c.gap := Comment.size_blankFrom _ _
  have hblank := h.text_append t (.inl rfl)
  have hread := h.reads
  have hne : ∀ u, c.text ++ blank t ≠ '/' :: '/' :: u ∧ c.text ++ blank t ≠ '/' :: '*' :: u := by
    rw [← hblank]
    exact fun u => Comment.blank_ne_comment
  obtain ⟨-, -, hl⟩ := exists_of_first? hread
  obtain ⟨x, l, hxl⟩ := List.exists_cons_of_ne_nil h.text_ne_nil
  have hx : isBlank x = false := by
    rw [hxl] at hl
    rcases hl with hl | ⟨raw, hl, -⟩
    · have hsolid := hl x (List.mem_cons_self ..)
      simp only [isSolid, Bool.and_eq_true, Bool.not_eq_true'] at hsolid
      exact hsolid.1
    · cases (List.cons.inj hl).1
      rfl
  rw [h.isGap.append, hblank]
  rw [hxl, List.cons_append] at hne hread ⊢
  rw [tokensFrom_append o h.isGap.blank hx hne, hread, hsize]
  simp

/-- **The tokens of a text are those of its cuts**, behind which only a gap may follow. -/
theorem tokensFrom_blank_eq_ok_iff (o : Nat) {t : Text} {ls : List Lexeme} :
    tokensFrom o (blank t) = .ok ls ↔
      ∃ cs v, t = raw cs ++ v ∧ Standing cs v ∧ (∀ x ∈ blank v, isBlank x = true) ∧
        ls = lexemes o cs := by
  constructor
  · intro h
    induction hn : t.length using Nat.strongRecOn generalizing t o ls with
    | ind n ih =>
      subst hn
      by_cases hb : ∀ x ∈ blank t, isBlank x = true
      · rw [tokensFrom_of_blank o hb] at h
        cases h
        exact ⟨[], t, rfl, trivial, hb, rfl⟩
      · obtain ⟨g, x, r, hsplit, hg, hx, hne⟩ := exists_of_not_blank hb
        cases hk : first? (x :: r) with
        | none =>
          rw [hsplit, tokensFrom_append o hg hx hne, hk] at h
          cases h
        | some kl =>
          obtain ⟨c, t', rfl, hc⟩ := exists_cut hsplit hg hx hk
          have hlt : t'.length < (c.gap ++ (c.text ++ t')).length := by
            have := List.length_pos_iff.mpr hc.text_ne_nil
            simp only [List.length_append]
            omega
          rw [hc.tokensFrom_eq] at h
          cases ht : tokensFrom (o + Text.size c.gap + Text.size c.text) (blank t') with
          | error e =>
            rw [ht] at h
            cases h
          | ok ls' =>
            rw [ht] at h
            cases h
            obtain ⟨cs, v, rfl, hcs, hv, rfl⟩ := ih _ hlt _ ht rfl
            exact ⟨c :: cs, v, by simp, ⟨hc, hcs⟩, hv, rfl⟩
  · rintro ⟨cs, v, rfl, hcs, hv, rfl⟩
    induction cs generalizing o with
    | nil => exact tokensFrom_of_blank o hv
    | cons c cs ih =>
      rw [raw_cons, List.append_assoc, List.append_assoc, hcs.1.tokensFrom_eq, ih _ hcs.2]
      rfl

/-! ### Cuts in another text -/

theorem blank_append_of_plain {w : Text} (h : ∀ x ∈ w, x ≠ '/' ∧ x ≠ '"') (y : Text) :
    blank (w ++ y) = w ++ blank y := by
  induction w with
  | nil => rfl
  | cons x w ih =>
    have hx := h x (List.mem_cons_self ..)
    rw [List.cons_append, Comment.blank_cons hx.2 fun hslash => absurd hslash hx.1,
      ih fun z hz => h z (List.mem_cons_of_mem _ hz)]
    rfl

theorem isGap_of_blank {g : Text} (h : ∀ x ∈ g, isBlank x = true) : IsGap g := by
  have hplain : ∀ x ∈ g, x ≠ '/' ∧ x ≠ '"' := by
    intro x hx
    have hb := h x hx
    constructor
    · rintro rfl
      cases hb
    · rintro rfl
      cases hb
  have hg : blank g = g := by
    have happend := blank_append_of_plain hplain []
    rwa [List.append_nil, blank, blank, blankFrom, List.append_nil] at happend
  exact ⟨by rwa [hg], fun y => by rw [hg, blank_append_of_plain hplain]⟩

theorem hardHead_blank {v : Text} (h : HardHead v) : HardHead (blank v) := by
  cases v with
  | nil => exact h
  | cons x v =>
    have hx := h x rfl
    rintro z hz
    unfold blank blankFrom at hz
    split at hz
    · cases hz
    · cases hz
      rfl
    · cases hz
      rfl
    · next heq =>
      obtain ⟨rfl, -⟩ := List.cons.inj heq
      cases hz
      exact hx
    all_goals contradiction

/-- The first of the cuts with another gap in front of it. -/
def regap (g : Text) : List Cut → List Cut
  | [] => []
  | c :: cs => { c with gap := g } :: cs

theorem raw_regap {g : Text} (h : cs ≠ []) : raw (regap g cs) = g ++ written cs := by
  cases cs with
  | nil => exact absurd rfl h
  | cons c cs => simp [regap]

theorem Standing.regap {g : Text} (h : Standing cs t) (hg : IsGap g) : Standing (regap g cs) t := by
  cases cs with
  | nil => exact h
  | cons c cs => exact ⟨⟨hg, h.1.text_append, h.1.reads⟩, h.2⟩

@[simp] theorem map_token_regap (g : Text) : (regap g cs).map Cut.token = cs.map Cut.token := by
  cases cs <;> rfl

/-- Whatever follows the cut is not looked at if it is the text `v`. -/
structure Cut.Shut (c : Cut) (v : Text) : Prop where
  last : ∀ x ∈ c.text.getLast?, x ≠ '/' ∧ x ≠ '=' ∧ x ≠ '!'
  hard : (∃ x ∈ c.text, isSoft x = false) ∨ HardHead (blank v)

theorem Cut.Shut.bounded {d : Cut} (h : d.Shut v) (hd : d.text ≠ []) (u : Text) :
    Bounded (u ++ d.text) (blank v) := by
  refine ⟨h.hard.imp_left ?_, ?_⟩
  · rintro ⟨x, hx, hsoft⟩
    exact ⟨x, List.mem_append_right _ hx, hsoft⟩
  · intro x hx
    have hlast := List.getLast?_eq_some_getLast hd
    rw [List.getLast?_append, hlast, Option.some_or, ← hlast] at hx
    exact (h.last x hx).2

/-- **Cuts are read in the same way in front of another text** if neither text is looked
at. -/
theorem Standing.follow {d : Cut} {v' : Text} (h : Standing (cs ++ [d]) v) (hv : d.Shut v)
    (hv' : d.Shut v') : Standing (cs ++ [d]) v' := by
  have hd : d.text ≠ [] := (standing_append.mp h).2.1.text_ne_nil
  induction cs with
  | nil =>
    obtain ⟨hgap, htext, hread⟩ := h.1
    refine ⟨⟨hgap, fun y _ => htext y (.inr ?_), ?_⟩, trivial⟩
    · exact fun hlast => (hv.last _ hlast).1 rfl
    · exact first?_append hread List.prefix_rfl (hv.bounded hd []) (hv'.bounded hd [])
  | cons c cs ih =>
    obtain ⟨hc, hcs⟩ : c.Stands (raw (cs ++ [d]) ++ v) ∧ Standing (cs ++ [d]) v := h
    have htail := ih hcs
    have hread := hc.reads
    rw [hcs.blank_append, ← List.append_assoc] at hread
    have hhead : (raw (cs ++ [d]) ++ v').head? = (raw (cs ++ [d]) ++ v).head? := by
      have hne : raw (cs ++ [d]) ≠ [] := by simp [hd]
      obtain ⟨x, r, hx⟩ := List.exists_cons_of_ne_nil hne
      rw [hx]
      rfl
    have hstands : c.Stands (raw (cs ++ [d]) ++ v') := by
      refine ⟨hc.isGap, fun y hy => hc.text_append y (hhead ▸ hy), ?_⟩
      rw [htail.blank_append, ← List.append_assoc]
      have hbounded : ∀ {u : Text}, d.Shut u →
          Bounded (c.text ++ blanked (cs ++ [d])) (blank u) := by
        intro u hu
        have := hu.bounded hd (c.text ++ (blanked cs ++ blank d.gap))
        simpa using this
      exact first?_append hread (List.prefix_append _ _) (hbounded hv) (hbounded hv')
    exact ⟨hstands, htail⟩

/-- Fixed characters are read as the token that they are on their own. -/
theorem Cut.stands_of_first? (hg : IsGap c.gap) (hk : first? c.text = some (c.token, c.text))
    (hp : ∀ x ∈ c.text, x ≠ '/' ∧ x ≠ '"') (hv : c.Shut v) : c.Stands v := by
  have hne : c.text ≠ [] := (exists_of_first? hk).2.1
  have hnil : c.Shut [] := ⟨hv.last, .inr nofun⟩
  refine ⟨hg, fun y _ => blank_append_of_plain hp y, ?_⟩
  have hread : first? (c.text ++ blank []) = some (c.token, c.text) := by
    rwa [blank, blankFrom, List.append_nil]
  exact first?_append hread List.prefix_rfl (hnil.bounded hne []) (hv.bounded hne [])

/-! ### The end of a stretch of cuts -/

/-- The token is a bracket that closes, other than a parenthesis. -/
def isClose : Token → Bool
  | .symbol .rightAngle | .symbol .rightSquare | .symbol .rightBrace => true
  | _ => false

/-- The token is a mark that follows the name of a parameter. -/
def isStop : Token → Bool
  | .symbol .comma | .symbol .rightParen | .symbol .colon | .symbol .equals => true
  | _ => false

theorem Cut.Stands.exists_symbol {s : Symbol} (h : c.Stands t) (hs : c.token = .symbol s) :
    (c.text, s) ∈ symbols := by
  have hread := h.reads
  rw [hs] at hread
  obtain ⟨-, s', hmem, ⟨⟩⟩ := exists_of_symbol? (symbol?_of_first? hread)
  exact hmem

theorem Cut.Stands.shut_of_isClose (h : c.Stands t) (hc : isClose c.token = true) (v : Text) :
    c.Shut v := by
  have hall : symbols.all (fun x => !isClose (.symbol x.2) || x.1.all fun c =>
      !isSoft c && c != '/' && c != '=' && c != '!') = true := by decide
  obtain ⟨s, hs⟩ : ∃ s, c.token = .symbol s := by
    cases hk : c.token <;> rw [hk] at hc <;> first | exact ⟨_, rfl⟩ | cases hc
  have hmem := List.all_eq_true.mp hall _ (h.exists_symbol hs)
  rw [← hs, hc] at hmem
  simp only [Bool.not_true, Bool.false_or, List.all_eq_true, Bool.and_eq_true,
    Bool.not_eq_true', bne_iff_ne] at hmem
  obtain ⟨x, hx⟩ := List.exists_mem_of_ne_nil _ h.text_ne_nil
  refine ⟨fun x hx => ?_, .inl ⟨x, hx, (hmem x hx).1.1.1⟩⟩
  obtain ⟨⟨⟨-, hslash⟩, heq⟩, hbang⟩ := hmem x (List.mem_of_getLast? hx)
  exact ⟨hslash, heq, hbang⟩

theorem Cut.Stands.shut_of_isWord (h : c.Stands t) (hc : isWord c.token = true)
    (hv : HardHead (blank v)) : c.Shut v := by
  refine ⟨fun x hx => ?_, .inr hv⟩
  have hsoft := (of_first?_word h.reads hc).1 x (List.mem_of_getLast? hx)
  refine ⟨?_, ?_, ?_⟩ <;>
  · rintro rfl
    cases hsoft

theorem Standing.hardHead {d : Cut} (h : Standing (d :: ds) v) (hd : d.gap = [] → HardHead d.text) :
    HardHead (blank (raw (d :: ds) ++ v)) := by
  rw [h.blank_append, blanked_cons, List.append_assoc]
  cases hg : blank d.gap with
  | cons x g =>
    intro y hy
    cases hy
    have hx := h.1.isGap.blank x (by simp [hg])
    rw [Bool.eq_false_iff]
    intro hsoft
    have hsolid := isSolid_of_isSoft hsoft
    rw [isSolid, hx] at hsolid
    cases hsolid
  | nil =>
    have hgap : d.gap = [] := Comment.blankFrom_eq_nil_iff.mp hg
    obtain ⟨x, l, hx⟩ := List.exists_cons_of_ne_nil h.1.text_ne_nil
    have hhard := hd hgap
    rw [hx] at hhard ⊢
    exact hhard

theorem Standing.hardHead_of_isStop {d : Cut} (h : Standing (d :: ds) v)
    (hd : isStop d.token = true) : HardHead (blank (raw (d :: ds) ++ v)) := by
  have hall : symbols.all (fun x => !isStop (.symbol x.2) || x.1.all fun c => !isSoft c) =
      true := by decide
  obtain ⟨s, hs⟩ : ∃ s, d.token = .symbol s := by
    cases hk : d.token <;> rw [hk] at hd <;> first | exact ⟨_, rfl⟩ | cases hd
  have hmem := List.all_eq_true.mp hall _ (h.1.exists_symbol hs)
  rw [← hs, hd] at hmem
  simp only [Bool.not_true, Bool.false_or, List.all_eq_true, Bool.not_eq_true'] at hmem
  exact h.hardHead fun _ x hx => hmem x (List.mem_of_mem_head? hx)

/-- There is a gap between two words. -/
theorem Standing.hardHead_of_isWord {d : Cut} (h : Standing (c :: d :: ds) v)
    (hc : isWord c.token = true) (hd : isWord d.token = true) :
    HardHead (blank (raw (d :: ds) ++ v)) := by
  refine h.2.hardHead fun hgap => ?_
  obtain ⟨-, -, hend⟩ := of_first?_word h.1.reads hc
  obtain ⟨-, hstart, -⟩ := of_first?_word h.2.1.reads hd
  obtain ⟨x, l, hx⟩ := List.exists_cons_of_ne_nil h.2.1.text_ne_nil
  rw [hx] at hstart
  have hnot : isNameChar x = false := by
    refine hend x ?_
    rw [h.2.blank_append, blanked_cons, hgap, hx]
    rfl
  rw [hstart x rfl] at hnot
  cases hnot

end Cuts

/-! ### Evaluation -/

/-- The tokens of a text that starts at `o` if there are less than `n` of them. -/
def tokensWithin : Nat → Nat → Text → Option (List Lexeme)
  | 0, _, _ => none
  | n + 1, o, t =>
    match splitGap t with
    | (_, []) => some []
    | (gap, c :: r) =>
      if startsComment (c :: r) then none
      else
        match first? (c :: r) with
        | none => none
        | some (k, l) =>
          (tokensWithin n (o + Text.size gap + Text.size l) (r.drop (l.length - 1))).map
            (⟨k, ⟨o + Text.size gap, o + Text.size gap + Text.size l⟩⟩ :: ·)

theorem tokensFrom_of_tokensWithin {n o : Nat} {t : Text} {ls : List Lexeme}
    (h : tokensWithin n o t = some ls) : tokensFrom o t = .ok ls := by
  induction n generalizing o t ls with
  | zero => cases h
  | succ n ih =>
    rw [tokensWithin] at h
    rw [tokensFrom]
    split at h
    · next heq =>
      cases h
      split
      · rfl
      · next heq' =>
        rw [heq] at heq'
        cases heq'
    · next gap c r heq =>
      split
      · next heq' =>
        rw [heq] at heq'
        cases heq'
      · next heq' =>
        rw [heq] at heq'
        cases heq'
        split at h
        · cases h
        · next hs =>
          rw [if_neg hs]
          revert h
          cases first? (c :: r) with
          | none =>
            intro h
            cases h
          | some p =>
            intro h
            obtain ⟨ls, hls, rfl⟩ := Option.map_eq_some_iff.mp h
            simp only [ih hls]
            rfl

end Token

end PixelWrap
