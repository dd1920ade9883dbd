import PixelWrap.Proofs.Comments
import PixelWrap.Proofs.Occurrences
import PixelWrap.Proofs.Partition

/-!
# Comments before and after they are overwritten

Comments are looked for twice.  The preprocessor overwrites them, and the lexer skips them
between tokens.  Each has its own way to find them, and both find the same ones: a text has
the same tokens at the same places, or stops being readable at the same place, before and
after its comments have been overwritten.

There is one exception.  A block comment that nothing closes is an error of the lexer, but it
goes to the end of the text for the preprocessor, which overwrites it like any other.  So
the lexer never gets to see it, and such a text is read as if it ended in blanks.

## Main definitions

* `Comment.LeavesOpen`: a block comment starts in a text that nothing closes.
* `Token.tokenStream`: the tokens of a text, or the offset at which there is none.
* `lexMain`: the tokens of a main file.

## Main results

* `Token.Separates.exists_leads`: what the lexer skips is overwritten with blanks.
* `Token.first?_blank`: a token is read in the same way after comments are overwritten.
* `Token.tokenStream_blank`: **overwriting comments changes neither the tokens of a text nor
  the offset at which there is none.**
* `Comment.leavesOpen_of_modeAfter`: where the open comment of a text starts.
* `lexMain_of_openComment`: **a block comment that nothing closes is read as blanks.**
-/

namespace PixelWrap

open Comment (blank blankFrom blankChar modeAfter)

namespace Comment

/-! ### Stretches of text -/

theorem leads_all {s : Text} (hs : ∀ c ∈ s, c ≠ '/' ∧ c ≠ '"') : Leads .code s s .code := by
  induction s with
  | nil => exact .nil _
  | cons c s ih =>
    have hc := hs c (List.mem_cons_self ..)
    exact (leads_code hc.1 hc.2).append (ih fun d hd => hs d (List.mem_cons_of_mem _ hd))

/-- A comment that ends with its line is overwritten up to there. -/
theorem leads_line {body : Text} (h : '\n' ∉ body) :
    Leads .line body (body.flatMap blankChar) .line := by
  induction body with
  | nil => exact .nil _
  | cons c body ih =>
    have hc : (c == '\n') = false := by
      rw [beq_eq_false_iff_ne]
      rintro rfl
      exact h (List.mem_cons_self ..)
    have hstep := leads_line_char c
    rw [hc] at hstep
    exact hstep.append (ih fun hmem => h (List.mem_cons_of_mem _ hmem))

section Block

variable {c : Char} {r body : Text}

theorem ne_close_of_not_infix (h : ¬['*', '/'] <:+: c :: r) (r' : Text) (hc : c = '*')
    (hr : r = '/' :: r') : False := by
  subst hc hr
  exact h ⟨[], r', rfl⟩

theorem not_infix_of_cons (h : ¬['*', '/'] <:+: c :: r) : ¬['*', '/'] <:+: r :=
  fun hinfix => h (List.infix_cons hinfix)

/-- A comment that nothing closes is overwritten up to the end of the text. -/
theorem blankFrom_block (h : ¬['*', '/'] <:+: body) :
    blankFrom .block body = body.flatMap blankChar ∧ modeAfter .block body = .block := by
  induction body with
  | nil => exact ⟨rfl, rfl⟩
  | cons c body ih =>
    obtain ⟨htext, hmode⟩ := ih (not_infix_of_cons h)
    have hne := ne_close_of_not_infix h
    rw [blankFrom, modeAfter, htext]
    · exact ⟨rfl, hmode⟩
    · exact hne
    · exact hne

/-- Any other one is overwritten up to the mark that closes it. -/
theorem leads_block (h : ¬['*', '/'] <:+: body) :
    Leads .block (body ++ ['*', '/']) (body.flatMap blankChar ++ [' ', ' ']) .code := by
  induction body with
  | nil => exact leads_closeBlock
  | cons c body ih =>
    have hrest := ih (not_infix_of_cons h)
    rw [List.cons_append, List.flatMap_cons, List.append_assoc]
    refine hrest.cons_block fun hc y r hr => ?_
    cases body with
    | nil => cases hr
    | cons d body =>
      obtain ⟨rfl, -⟩ := List.cons.inj hr
      exact ne_close_of_not_infix h body hc rfl

end Block

end Comment

namespace Token

open Comment (Leads Kept isBlank_of_mem_pair)

/-! ### Gaps -/

theorem isBlank_of_mem_blanks {body : Text} : ∀ x ∈ body.flatMap blankChar, isBlank x = true := by
  intro x hx
  obtain ⟨c, -, hc⟩ := List.mem_flatMap.mp hx
  exact Comment.isBlank_of_mem_blankChar hc

/-- **What the lexer skips in front of a token is overwritten with blanks.** -/
theorem Separates.exists_leads {g : Text} (h : Separates g) :
    ∃ out, (∀ x ∈ out, isBlank x = true) ∧ Leads .code g out .code := by
  induction h with
  | nil => exact ⟨[], nofun, .nil _⟩
  | @blank c g hc _ ih =>
    obtain ⟨out, hout, hleads⟩ := ih
    have hne : c ≠ '/' ∧ c ≠ '"' := by
      constructor <;>
      · rintro rfl
        cases hc
    exact ⟨[c] ++ out, by simpa [hc] using hout, (Comment.leads_code hne.1 hne.2).append hleads⟩
  | @line body g hbody _ ih =>
    obtain ⟨out, hout, hleads⟩ := ih
    have hclose : Leads .line ['\n'] ['\n'] .code := Comment.leads_line_char '\n'
    have hline := (Comment.leads_line hbody).append (hclose.append hleads)
    refine ⟨_, ?_, Comment.leads_openLine.append hline⟩
    simp only [List.forall_mem_append, List.forall_mem_singleton]
    exact ⟨isBlank_of_mem_pair, isBlank_of_mem_blanks, rfl, hout⟩
  | @block body g hbody _ ih =>
    obtain ⟨out, hout, hleads⟩ := ih
    have hcomment := Comment.leads_openBlock.append ((Comment.leads_block hbody).append hleads)
    rw [List.append_assoc] at hcomment
    refine ⟨_, ?_, hcomment⟩
    simp only [List.forall_mem_append]
    exact ⟨isBlank_of_mem_pair, ⟨isBlank_of_mem_blanks, isBlank_of_mem_pair⟩, hout⟩

/-- What the lexer skips at the end of a text is overwritten with blanks as well. -/
theorem SeparatesLast.isBlank_of_mem_blank {g : Text} (h : SeparatesLast g) :
    ∀ x ∈ Comment.blank g, isBlank x = true := by
  obtain ⟨a, b, rfl, ha, hb⟩ := h
  obtain ⟨out, hout, hleads⟩ := ha.exists_leads
  rw [Comment.blank, hleads.text, List.forall_mem_append]
  refine ⟨hout, ?_⟩
  rcases hb with rfl | ⟨body, rfl, hbody⟩
  · intro x hx
    cases hx
  · have hcomment := (Comment.leads_openLine.append (Comment.leads_line hbody)).blankFrom_eq
    rw [List.cons_append, List.cons_append, List.nil_append] at hcomment
    rw [hcomment, List.forall_mem_append]
    exact ⟨isBlank_of_mem_pair, isBlank_of_mem_blanks⟩

/-! ### One token -/

theorem string?_blankFrom (r : Text) :
    string? ('"' :: blankFrom .quoted r) = string? ('"' :: r) := by
  rw [string?, string?, Comment.untilQuote?_blankFrom]

theorem Bare.kept {c : Char} {r : Text} (h : Bare (c :: r)) : Kept c r := by
  rintro rfl
  cases r with
  | nil => exact ⟨nofun, nofun⟩
  | cons d r =>
    constructor
    · rintro ⟨⟩
      exact (h r).1 rfl
    · rintro ⟨⟩
      exact (h r).2 rfl

/-- The character starts neither a comment nor a literal. -/
def isPlain (c : Char) : Bool := c != '/' && c != '"'

/-- A text that starts with a comment or a literal, or with a slash, starts with a slash, a
quote or a blank when its comments are overwritten. -/
theorem head_blank_of_not_plain {s : Text} (hs : ∀ c ∈ s.head?, isPlain c = false) :
    ∀ c ∈ (blank s).head?, c = '/' ∨ c = '"' ∨ c = ' ' := by
  cases s with
  | nil => exact nofun
  | cons d s =>
    by_cases hq : d = '"'
    · subst hq
      rintro c ⟨⟩
      exact .inr (.inl rfl)
    · obtain rfl : d = '/' := by
        have hd := hs d rfl
        simp only [isPlain, Bool.and_eq_false_iff, bne_eq_false_iff_eq] at hd
        exact hd.resolve_right hq
      by_cases hkept : Kept '/' s
      · rw [Comment.blank_cons hq hkept]
        rintro c ⟨⟩
        exact .inl rfl
      · have hcomment : s.head? = some '/' ∨ s.head? = some '*' := by
          by_contra hne
          exact hkept fun _ => not_or.mp hne
        rcases hcomment with h | h
        · obtain ⟨r, rfl⟩ := List.head?_eq_some_iff.mp h
          rintro c ⟨⟩
          exact .inr (.inr rfl)
        · obtain ⟨r, rfl⟩ := List.head?_eq_some_iff.mp h
          rintro c ⟨⟩
          exact .inr (.inr rfl)

/-- **A token is read in the same way after comments have been overwritten.** -/
theorem first?_blank {t : Text} (h : Bare t) : first? (blank t) = first? t := by
  cases t with
  | nil => rfl
  | cons c r =>
    by_cases hq : c = '"'
    · subst hq
      rw [first?_quote, ← string?_blankFrom r, ← first?_quote]
      rfl
    by_cases hs : c = '/'
    · subst hs
      rw [Comment.blank_cons hq h.kept, first?_of_hard rfl hq (by decide),
        first?_of_hard rfl hq (by decide)]
    -- Up to the first slash or quote nothing changes, and no number or word goes on there.
    have hplain : ∀ x ∈ r.takeWhile isPlain, x ≠ '/' ∧ x ≠ '"' := by
      intro x hx
      have hx := List.mem_takeWhile_imp hx
      simpa [isPlain] using hx
    have hstop : ∀ x ∈ (r.dropWhile isPlain).head?, isPlain x = false :=
      fun x => of_mem_head?_dropWhile
    have hsplit := List.takeWhile_append_dropWhile (p := isPlain) (l := r)
    generalize r.takeWhile isPlain = a at hplain hsplit
    generalize r.dropWhile isPlain = s at hstop hsplit
    subst hsplit
    have hhead := head_blank_of_not_plain hstop
    have hblank : blank (c :: (a ++ s)) = c :: (a ++ blank s) :=
      ((Comment.leads_code hs hq).append (Comment.leads_all hplain)).text s
    have hhard : HardHead s := by
      intro x hx
      have hx := hstop x hx
      simp only [isPlain, Bool.and_eq_false_iff, bne_eq_false_iff_eq] at hx
      rcases hx with rfl | rfl <;> rfl
    have hhard' : HardHead (blank s) := by
      intro x hx
      rcases hhead x hx with rfl | rfl | rfl <;> rfl
    have hsymbol : symbol? (c :: (a ++ blank s)) = symbol? (c :: (a ++ s)) := by
      cases a with
      | cons d a =>
        exact (symbol?_cons_cons c d _).trans (symbol?_cons_cons c d _).symm
      | nil =>
        have hne : s.head? ≠ some '=' := by
          intro heq
          cases hstop '=' heq
        have hne' : (blank s).head? ≠ some '=' := by
          intro heq
          rcases hhead '=' heq with heq | heq | heq <;> cases heq
        exact (symbol?_cons_of_head hne').trans (symbol?_cons_of_head hne).symm
    rw [hblank, first?, first?, hsymbol, string?_cons hq, string?_cons hq, ← List.cons_append,
      ← List.cons_append, float?_append hhard, float?_append hhard', int?_append hhard,
      int?_append hhard', word?_append hhard, word?_append hhard']

/-- A token is a literal, or the slash, or it has neither a slash nor a quote in it. -/
theorem cases_of_first? {t l : Text} {k : Token} (h : first? t = some (k, l)) :
    (∃ raw, l = '"' :: (raw ++ ['"']) ∧ ∀ w, untilQuote? (raw ++ '"' :: w) = some raw) ∨
      l = ['/'] ∨ ∀ c ∈ l, c ≠ '/' ∧ c ≠ '"' := by
  have hsoft : Takes t l → ∀ c ∈ l, c ≠ '/' ∧ c ≠ '"' := by
    intro htakes c hc
    have hc := htakes.soft c hc
    constructor <;>
    · rintro rfl
      cases hc
  rcases Option.or_eq_some_iff.mp h with h | ⟨-, h⟩
  · exact .inr (.inr (hsoft (float?_takes h).1))
  rcases Option.or_eq_some_iff.mp h with h | ⟨-, h⟩
  · exact .inr (.inr (hsoft (int?_takes h).1))
  rcases Option.or_eq_some_iff.mp h with h | ⟨-, h⟩
  · exact .inl (exists_of_string? h).2.2
  rcases Option.or_eq_some_iff.mp h with h | ⟨-, h⟩
  · exact .inr (.inr (hsoft (word?_takes h).1))
  · obtain ⟨-, s, hs, rfl⟩ := exists_of_symbol? h
    have hall : symbols.all (fun x => x.1 == ['/'] || x.1.all isPlain) = true := by decide
    have hl := List.all_eq_true.mp hall _ hs
    simp only [Bool.or_eq_true, beq_iff_eq, List.all_eq_true] at hl
    refine .inr (hl.imp_right fun hl c hc => ?_)
    simpa [isPlain] using hl c hc

/-- A token is not overwritten, and no comment is open behind it. -/
theorem blank_append_of_first? {l x : Text} {k : Token} (h : first? (l ++ x) = some (k, l))
    (hbare : Bare (l ++ x)) :
    blank (l ++ x) = l ++ blank x ∧ modeAfter .code (l ++ x) = modeAfter .code x := by
  rcases cases_of_first? h with ⟨raw, rfl, hraw⟩ | rfl | hl
  · have hopen : Leads .code ['"'] ['"'] .quoted := ⟨fun _ => rfl, fun _ => rfl⟩
    have hleads := hopen.append (Comment.leads_quoted (hraw []))
    exact ⟨hleads.text x, hleads.mode x⟩
  · exact ⟨Comment.blank_cons (by decide) hbare.kept,
      Comment.modeAfter_cons (by decide) hbare.kept⟩
  · have hleads := Comment.leads_all hl
    exact ⟨hleads.text x, hleads.mode x⟩

/-! ### All tokens -/

/-- Where no gap starts, no comment starts, unless one is left open. -/
theorem bare_of_splitGap {t : Text} (hgap : splitGap t = ([], t))
    (hmode : modeAfter .code t ≠ .block) : Bare t := by
  intro u
  constructor
  · rintro rfl
    rw [splitGap_line] at hgap
    cases hgap
  · rintro rfl
    cases hcut : Text.cut? ['*', '/'] u with
    | none => exact hmode (Comment.blankFrom_block (Text.cut?_eq_none_iff.mp hcut)).2
    | some p =>
      rw [splitGap_block hcut] at hgap
      cases hgap

/-- A character that starts no comment is not overwritten. -/
theorem Bare.exists_blank_eq {c : Char} {r : Text} (h : Bare (c :: r)) :
    ∃ r', Comment.blank (c :: r) = c :: r' := by
  by_cases hq : c = '"'
  · subst hq
    exact ⟨_, rfl⟩
  · exact ⟨_, Comment.blank_cons hq h.kept⟩

/-- **Overwriting comments changes no token**, and where no token can be read, it changes the
text that is left in its comments alone. -/
theorem tokensFrom_blank (o : Nat) {t : Text} (h : modeAfter .code t ≠ .block) :
    tokensFrom o (blank t) = (tokensFrom o t).mapError blank := by
  induction hn : t.length using Nat.strongRecOn generalizing t o with
  | ind n ih =>
    subst hn
    obtain ⟨⟨g, r⟩, hgap⟩ : ∃ x, splitGap t = x := ⟨_, rfl⟩
    obtain ⟨hlast, hsep⟩ := separates_of_splitGap hgap
    have happend : g ++ r = t := by
      have := splitGap_append t
      rwa [hgap] at this
    subst happend
    cases r with
    | nil =>
      rw [List.append_nil, tokensFrom_of_separatesLast o hlast,
        tokensFrom_of_blank o hlast.isBlank_of_mem_blank]
      rfl
    | cons c r =>
      -- The gap becomes blanks of the same size, and behind it no comment starts.
      obtain ⟨out, hout, hleads⟩ := (hsep (by simp)).exists_leads
      rw [hleads.mode] at h
      have hstart := splitGap_of_splitGap hgap
      have hbare := bare_of_splitGap hstart h
      have hc : isBlank c = false := by
        rw [Bool.eq_false_iff]
        intro hc
        rw [splitGap_blank hc] at hstart
        cases hstart
      obtain ⟨r', hr'⟩ := hbare.exists_blank_eq
      have hblank : blank (g ++ c :: r) = out ++ c :: r' := by
        rw [← hr']
        exact hleads.text _
      have hfirst : first? (c :: r') = first? (c :: r) := by rw [← hr', first?_blank hbare]
      rw [hblank, tokensFrom_append o hout hc fun u => hr' ▸ Comment.blank_ne_comment,
        tokensFrom_of_splitGap o hgap, startsComment_eq_false fun u => (hbare u).2, hfirst,
        hleads.size_eq]
      cases hread : first? (c :: r) with
      | none => exact congrArg Except.error hr'.symm
      | some kl =>
        obtain ⟨k, l⟩ := kl
        obtain ⟨⟨x, hx⟩, hne, -⟩ := exists_of_first? hread
        obtain ⟨d, l, rfl⟩ := List.exists_cons_of_ne_nil hne
        obtain ⟨rfl, hr⟩ := List.cons.inj hx
        obtain rfl : l ++ x = r := hr
        obtain ⟨htext, hmode⟩ := blank_append_of_first? (l := d :: l) hread hbare
        rw [← List.cons_append, hmode] at h
        have hrest : r' = l ++ blank x := (List.cons.inj (hr'.symm.trans htext)).2
        have hlt : x.length < (g ++ d :: (l ++ x)).length := by
          simp only [List.length_append, List.length_cons]
          omega
        have hnext := ih _ hlt (o + Text.size g + Text.size (d :: l)) h rfl
        simp only [List.length_cons, Nat.add_sub_cancel, List.drop_left, hrest, hnext,
          Bool.false_eq_true, if_false]
        cases tokensFrom (o + Text.size g + Text.size (d :: l)) x with
        | error rest => rfl
        | ok ls => rfl

/-- The tokens of a text, or the offset at which there is none. -/
def tokenStream (t : Text) : Except Nat (List Lexeme) :=
  (tokens t).mapError fun rest => Text.size t - Text.size rest

/-- **Overwriting comments changes neither the tokens of a text nor the offset at which there
is none**, unless the text ends inside of a block comment. -/
theorem tokenStream_blank (t : Text) (h : modeAfter .code t ≠ .block) :
    tokenStream (blank t) = tokenStream t := by
  have hsize : ∀ s, Text.size (blank s) = Text.size s := Comment.size_blankFrom .code
  rw [tokenStream, tokenStream, tokens, tokens, tokensFrom_blank 0 h, hsize]
  cases tokensFrom 0 t with
  | ok ls => rfl
  | error rest =>
    show Except.error (Text.size t - Text.size (blank rest)) = _
    rw [hsize]
    rfl

/-- A text with quotes in comments and marks of comments in a literal. -/
def mixedText : Text := "a/*\"//*/+\"/*\\\"//\"//*\"\nb".toList

/-- It has four tokens, one of them with all these marks. -/
theorem tokenStream_blank_mixedText :
    blank mixedText = "a       +\"/*\\\"//\"    \nb".toList ∧ modeAfter .code mixedText ≠ .block ∧
      tokenStream (blank mixedText) = tokenStream mixedText ∧
      tokenStream mixedText = .ok [⟨.name "a", ⟨0, 1⟩⟩, ⟨.symbol .plus, ⟨8, 9⟩⟩,
        ⟨.string "/*\\\"//", ⟨9, 17⟩⟩, ⟨.name "b", ⟨22, 23⟩⟩] := by
  have hmode : modeAfter .code mixedText ≠ .block := by decide
  refine ⟨by decide, hmode, tokenStream_blank mixedText hmode, ?_⟩
  rw [tokenStream, tokens, tokensFrom_of_tokensWithin (n := 5) (by cbv)]
  rfl

end Token

/-! ### Open comments -/

namespace Comment

/-- A block comment starts in the text, read from the mode `m` on, that nothing closes. -/
def LeavesOpen (m : Mode) (t : Text) : Prop :=
  ∃ front body out, t = front ++ '/' :: '*' :: body ∧ ¬['*', '/'] <:+: body ∧
    Leads m front out .code

theorem LeavesOpen.append {m m' : Mode} {s out t : Text} (hs : Leads m s out m')
    (h : LeavesOpen m' t) : LeavesOpen m (s ++ t) := by
  obtain ⟨front, body, out', rfl, hbody, hfront⟩ := h
  exact ⟨s ++ front, body, out ++ out', (List.append_assoc ..).symm, hbody, hs.append hfront⟩

/-- A text that ends in a block comment is one from the start, or the comment starts in it. -/
theorem leavesOpen_of_modeAfter {m : Mode} {t : Text} (h : modeAfter m t = .block) :
    (m = .block ∧ ¬['*', '/'] <:+: t) ∨ LeavesOpen m t := by
  fun_induction modeAfter m t with
  | case1 m => exact .inl ⟨h, by simp⟩
  | case2 r ih =>
    have hr := (ih h).resolve_left (by simp)
    exact .inr (hr.append leads_openLine)
  | case3 r ih =>
    rcases ih h with ⟨-, hr⟩ | hr
    · exact .inr ⟨[], r, [], rfl, hr, .nil _⟩
    · exact .inr (hr.append leads_openBlock)
  | case4 c r hline hblock ih =>
    obtain ⟨front, body, out, rfl, hbody, hfront⟩ :=
      (ih h).resolve_left (by split <;> simp)
    have hkept := (kept_of_ne hline hblock).append_of_slash
    exact .inr ⟨c :: front, body, c :: out, rfl, hbody, hfront.cons_code hkept⟩
  | case5 c r ih =>
    have hr := (ih h).resolve_left (by split <;> simp)
    exact .inr (hr.append (leads_line_char c))
  | case6 r ih =>
    have hr := (ih h).resolve_left (by simp)
    exact .inr (hr.append leads_closeBlock)
  | case7 c r hclose ih =>
    rcases ih h with ⟨-, hr⟩ | ⟨front, body, out, rfl, hbody, hfront⟩
    · refine .inl ⟨rfl, fun hinfix => ?_⟩
      rcases List.infix_cons_iff.mp hinfix with ⟨w, hw⟩ | hinfix
      · obtain ⟨rfl, rfl⟩ := List.cons.inj hw
        exact hclose w rfl rfl
      · exact hr hinfix
    · refine .inr ⟨c :: front, body, blankChar c ++ out, rfl, hbody, hfront.cons_block ?_⟩
      intro hc y r hr
      obtain ⟨d, front, rfl⟩ := List.exists_cons_of_ne_nil (hfront.ne_nil (by decide))
      obtain ⟨rfl, -⟩ := List.cons.inj hr
      exact hclose _ hc rfl
  | case8 c r ih =>
    have hr := (ih h).resolve_left (by simp)
    exact .inr (hr.append (leads_escape c))
  | case9 c r hescape ih =>
    have hr := (ih h).resolve_left (by split <;> simp)
    have hc : c ≠ '\\' := by
      intro hc
      obtain ⟨front, body, out, rfl, -⟩ := hr
      cases front with
      | nil => exact hescape _ _ hc rfl
      | cons d front => exact hescape _ _ hc rfl
    exact .inr (hr.append (leads_quoted_char hc))

/-- Overwriting an open comment leaves blanks, which are overwritten by themselves. -/
theorem blank_of_open {front body out : Text} (hfront : Leads .code front out .code)
    (hbody : ¬['*', '/'] <:+: body) :
    blank (front ++ '/' :: '*' :: body) =
      blank (front ++ ' ' :: ' ' :: body.flatMap blankChar) := by
  have hblanks : ∀ c ∈ ' ' :: ' ' :: body.flatMap blankChar, c ≠ '/' ∧ c ≠ '"' := by
    intro c hc
    have hblank : isBlank c = true := by
      rcases List.mem_append.mp (show c ∈ [' ', ' '] ++ body.flatMap blankChar from hc) with hc | hc
      · exact isBlank_of_mem_pair c hc
      · exact Token.isBlank_of_mem_blanks c hc
    constructor <;>
    · rintro rfl
      cases hblank
  rw [blank, blank, hfront.text, hfront.text, (leads_all hblanks).blankFrom_eq, blankFrom,
    (blankFrom_block hbody).1]

end Comment

/-- The tokens of a main file; `load` gives the files that can be included. -/
def lexMain (load : String → Option Text) (name : Option String) (text : Text) :
    Except Generate.Error (List Lexeme) :=
  match (Preprocessed.run load name text).result with
  | .error e => .error (.preprocess e)
  | .ok p => (Token.lex p).mapError .lex

/-- Comments do not count for tokens. -/
theorem lexMain_of_blank_eq (load : String → Option Text) (name : Option String) {t t' : Text}
    (h : blank t = blank t') : lexMain load name t = lexMain load name t' := by
  rw [lexMain, lexMain]
  rcases (Preprocessed.matches_run load name h).1.exists_or with
    ⟨p, p', hp, hp', hmatches⟩ | ⟨e, hp, hp'⟩
  · rw [hp, hp']
    simp only [hmatches.lex_eq]
  · rw [hp, hp']

/-- **A block comment that nothing closes is read as blanks.**  The text in front of it is
program text, and the tokens or the error of the file are those of the text with blanks in
place of the comment. -/
theorem lexMain_of_openComment (load : String → Option Text) (name : Option String) (t : Text)
    (h : modeAfter .code t = .block) :
    ∃ front body, t = front ++ '/' :: '*' :: body ∧ modeAfter .code front = .code ∧
      ¬['*', '/'] <:+: body ∧
      lexMain load name t = lexMain load name (front ++ ' ' :: ' ' :: body.flatMap blankChar) := by
  rcases Comment.leavesOpen_of_modeAfter h with ⟨hm, -⟩ | ⟨front, body, out, rfl, hbody, hfront⟩
  · cases hm
  · refine ⟨front, body, rfl, ?_, hbody,
      lexMain_of_blank_eq load name (Comment.blank_of_open hfront hbody)⟩
    have hmode := hfront.mode []
    rwa [List.append_nil] at hmode

/-- A file with an open comment behind a token. -/
def openText : Text := "a /* b".toList

theorem lexMain_of_openComment_openText : modeAfter .code openText = .block ∧
    ∃ front body, openText = front ++ '/' :: '*' :: body ∧ modeAfter .code front = .code ∧
      ¬['*', '/'] <:+: body ∧
      lexMain (fun _ => none) none openText =
        lexMain (fun _ => none) none (front ++ ' ' :: ' ' :: body.flatMap blankChar) := by
  have hmode : modeAfter .code openText = .block := by decide
  exact ⟨hmode, lexMain_of_openComment (fun _ => none) none openText hmode⟩

/-- It has a token and no error. -/
theorem lexMain_openText : modeAfter .code openText = .block ∧
    lexMain (fun _ => none) none openText = .ok [⟨.name "a", ⟨0, 1⟩⟩, ⟨.eof, ⟨6, 6⟩⟩] := by
  refine ⟨by decide, ?_⟩
  have hcode : (Preprocessed.run (fun _ => none) none openText).result.map (·.code) =
      .ok "a     ".toList := by cbv
  cases hrun : (Preprocessed.run (fun _ => none) none openText).result with
  | error e =>
    rw [hrun] at hcode
    cases hcode
  | ok p =>
    rw [hrun] at hcode
    have hp : p.code = "a     ".toList := Except.ok.inj hcode
    have htokens : Token.tokens "a     ".toList = .ok [⟨.name "a", ⟨0, 1⟩⟩] :=
      Token.tokensFrom_of_tokensWithin (n := 2) (by cbv)
    rw [lexMain, hrun]
    simp only [Token.lex, hp, htokens]
    rfl

end PixelWrap
