import PixelWrap.Proofs.Passages
import PixelWrap.Proofs.Truncation

/-!
# Tokens and gaps make up a text

What the lexer reads is a sequence of gaps and tokens that takes up the text from its start
to its end, or to the place where no token can be read.  A gap is described here without
the functions that skip it, as blanks and whole comments one after the other.  What a token
is does not depend on the text behind it, so each one can be read by itself, and where the
lexer stops, the text in front of that place can be cut into tokens.

## Main definitions

* `Token.Separates`: blanks and whole comments.
* `Token.SeparatesLast`: the same at the end of a text, where a line comment may stop.
* `Token.Cut.Reads`, `Token.Reading`: cuts that are read in front of a text.
* `Token.Partitions`: tokens and gaps make up a text.

## Main results

* `Token.splitGap_append_of_separates`, `Token.separates_of_splitGap`: what is skipped in
  front of a token is blanks and whole comments.
* `Token.exists_reading`: **the lexer reads cuts as long as there is something to read.**
* `Token.Reading.cutOff`: the cuts are read in the same way if what follows them is cut off.
* `Token.lex_partition`: **the lexer loses nothing and no tokens overlap.**
-/

namespace PixelWrap.Token

/-! ### Gaps -/

/-- The text is made up of blanks and whole comments. -/
inductive Separates : Text → Prop
  /-- There is nothing left. -/
  | nil : Separates []
  /-- A blank. -/
  | blank {c : Char} {g : Text} (hc : isBlank c = true) (hg : Separates g) : Separates (c :: g)
  /-- A comment that ends with its line. -/
  | line {body g : Text} (hbody : '\n' ∉ body) (hg : Separates g) :
      Separates ('/' :: '/' :: (body ++ '\n' :: g))
  /-- A comment that ends with the first star in front of a slash. -/
  | block {body g : Text} (hbody : ¬['*', '/'] <:+: body) (hg : Separates g) :
      Separates ('/' :: '*' :: (body ++ '*' :: '/' :: g))

/-- The text is made up of blanks and whole comments, where a last one may end with the text
instead of its line. -/
def SeparatesLast (g : Text) : Prop :=
  ∃ a b, g = a ++ b ∧ Separates a ∧ (b = [] ∨ ∃ body, b = '/' :: '/' :: body ∧ '\n' ∉ body)

theorem Separates.last {g : Text} (h : Separates g) : SeparatesLast g :=
  ⟨g, [], (List.append_nil g).symm, h, .inl rfl⟩

/-- A block comment ends with the first star in front of a slash. -/
theorem cut?_eq_some_iff {t body after : Text} :
    Text.cut? ['*', '/'] t = some (body, after) ↔
      t = body ++ '*' :: '/' :: after ∧ ¬['*', '/'] <:+: body := by
  induction t generalizing body with
  | nil => simp [Text.cut?]
  | cons c r ih =>
    rw [Text.cut?]
    split
    · next hfront =>
      obtain ⟨u, hu⟩ := List.isPrefixOf_iff_prefix.mp hfront
      rw [← hu]
      constructor
      · intro h
        cases h
        exact ⟨rfl, by simp⟩
      · rintro ⟨hsplit, hbody⟩
        cases body with
        | nil =>
          obtain rfl : u = after := by simpa using hsplit
          rfl
        | cons d body =>
          cases body with
          | nil => simp at hsplit
          | cons e body =>
            obtain ⟨rfl, rfl, -⟩ : '*' = d ∧ '/' = e ∧ u = body ++ '*' :: '/' :: after := by
              simpa using hsplit
            exact absurd ⟨[], body, rfl⟩ hbody
    · next hfront =>
      have hne : ∀ u, c :: r ≠ '*' :: '/' :: u := by
        rintro u hu
        exact hfront (by rw [hu]; rfl)
      rw [Option.map_eq_some_iff]
      constructor
      · rintro ⟨⟨body, after⟩, hcut, ⟨⟩⟩
        obtain ⟨rfl, hbody⟩ := ih.mp hcut
        refine ⟨rfl, fun hinfix => ?_⟩
        rcases List.infix_cons_iff.mp hinfix with ⟨w, hw⟩ | hinfix
        · exact hne (w ++ '*' :: '/' :: after) (by rw [← List.cons_append, ← hw]; rfl)
        · exact hbody hinfix
      · rintro ⟨hsplit, hbody⟩
        cases body with
        | nil => exact absurd hsplit (hne after)
        | cons d body =>
          obtain ⟨rfl, rfl⟩ := List.cons.inj hsplit
          exact ⟨(body, after),
            ih.mpr ⟨rfl, fun hinfix => hbody (List.infix_cons hinfix)⟩, rfl⟩

theorem splitGap_blank {c : Char} (hc : isBlank c = true) (r : Text) :
    splitGap (c :: r) = (c :: (splitGap r).1, (splitGap r).2) :=
  splitGap_append_of_blank (g := [c]) (by simpa using hc)

theorem splitGap_line (r : Text) : splitGap ('/' :: '/' :: r) =
    ('/' :: '/' :: (r.takeWhile (· != '\n') ++ (splitGap (r.dropWhile (· != '\n'))).1),
      (splitGap (r.dropWhile (· != '\n'))).2) := by
  rw [splitGap]
  rfl

theorem splitGap_block {r body after : Text} (h : Text.cut? ['*', '/'] r = some (body, after)) :
    splitGap ('/' :: '*' :: r) =
      ('/' :: '*' :: (body ++ '*' :: '/' :: (splitGap after).1), (splitGap after).2) := by
  rw [splitGap]
  split
  · next heq =>
    rw [h] at heq
    cases heq
    rfl
  · next heq =>
    rw [h] at heq
    cases heq

/-- **Blanks and whole comments are skipped.** -/
theorem splitGap_append_of_separates {g : Text} (h : Separates g) (x : Text) :
    splitGap (g ++ x) = (g ++ (splitGap x).1, (splitGap x).2) := by
  induction h with
  | nil => rfl
  | blank hc hg ih => rw [List.cons_append, splitGap_blank hc, ih]; rfl
  | @line body g hbody hg ih =>
    have hbody' : ∀ c ∈ body, (c != '\n') = true := by
      intro c hc
      rw [bne_iff_ne]
      rintro rfl
      exact hbody hc
    have hstop : ∀ c ∈ ('\n' :: g ++ x).head?, (c != '\n') = false := by
      rintro c ⟨⟩
      rfl
    rw [List.cons_append, List.cons_append, List.append_assoc, splitGap_line,
      Condition.takeWhile_append_of_head hbody' hstop,
      Condition.dropWhile_append_of_head hbody' hstop, List.cons_append, splitGap_blank rfl, ih]
    simp
  | @block body g hbody hg ih =>
    rw [List.cons_append, List.cons_append, List.append_assoc, List.cons_append, List.cons_append,
      splitGap_block (cut?_eq_some_iff.mpr ⟨rfl, hbody⟩), ih]
    simp

theorem splitGap_of_separatesLast {g : Text} (h : SeparatesLast g) : splitGap g = (g, []) := by
  obtain ⟨a, b, rfl, ha, hb⟩ := h
  rw [splitGap_append_of_separates ha]
  rcases hb with rfl | ⟨body, rfl, hbody⟩
  · simp [splitGap]
  · have hall : ∀ c ∈ body, (c != '\n') = true := by
      intro c hc
      rw [bne_iff_ne]
      rintro rfl
      exact hbody hc
    have htake := Condition.takeWhile_append_of_head (u := []) hall (by simp)
    have hdrop := Condition.dropWhile_append_of_head (u := []) hall (by simp)
    rw [List.append_nil] at htake hdrop
    rw [splitGap_line, htake, hdrop, splitGap]
    simp

theorem SeparatesLast.blank {c : Char} {g : Text} (hc : isBlank c = true)
    (h : SeparatesLast g) : SeparatesLast (c :: g) := by
  obtain ⟨a, b, rfl, ha, hb⟩ := h
  exact ⟨c :: a, b, rfl, .blank hc ha, hb⟩

theorem SeparatesLast.block {body g : Text} (hbody : ¬['*', '/'] <:+: body)
    (h : SeparatesLast g) : SeparatesLast ('/' :: '*' :: (body ++ '*' :: '/' :: g)) := by
  obtain ⟨a, b, rfl, ha, hb⟩ := h
  exact ⟨'/' :: '*' :: (body ++ '*' :: '/' :: a), b, by simp, .block hbody ha, hb⟩

theorem SeparatesLast.line {body g : Text} (hbody : '\n' ∉ body)
    (h : SeparatesLast g) : SeparatesLast ('/' :: '/' :: (body ++ '\n' :: g)) := by
  obtain ⟨a, b, rfl, ha, hb⟩ := h
  exact ⟨'/' :: '/' :: (body ++ '\n' :: a), b, by simp, .line hbody ha, hb⟩

/-- **What is skipped is blanks and whole comments.** -/
theorem separates_of_splitGap {t g r : Text} (h : splitGap t = (g, r)) :
    SeparatesLast g ∧ (r ≠ [] → Separates g) := by
  induction hn : t.length using Nat.strongRecOn generalizing t g with
  | ind n ih =>
    subst hn
    rw [splitGap.eq_def] at h
    split at h
    · cases h
      exact ⟨Separates.nil.last, fun _ => .nil⟩
    · next r' =>
      have hbody : '\n' ∉ r'.takeWhile (· != '\n') := fun hmem => by
        have := List.mem_takeWhile_imp hmem
        simp at this
      cases hd : r'.dropWhile (· != '\n') with
      | nil =>
        simp only [hd, splitGap] at h
        cases h
        exact ⟨⟨[], _, rfl, .nil, .inr ⟨_, rfl, by simpa using hbody⟩⟩, fun h => absurd rfl h⟩
      | cons c s =>
        -- The comment stops at a line feed, which is a blank.
        obtain rfl : c = '\n' := by
          have := of_mem_head?_dropWhile (v := r') (by rw [hd]; rfl) (c := c)
          simpa using this
        have hlt : s.length < ('/' :: '/' :: r').length := by
          have := (List.dropWhile_suffix (l := r') (· != '\n')).length_le
          rw [hd, List.length_cons] at this
          simp only [List.length_cons]
          omega
        simp only [hd, splitGap_blank (c := '\n') rfl] at h
        cases h
        obtain ⟨hlast, hsep⟩ := ih _ hlt (t := s) rfl rfl
        exact ⟨hlast.line hbody, fun hr => .line hbody (hsep hr)⟩
    · next r' =>
      split at h
      · next body after hcut =>
        obtain ⟨rfl, hbody⟩ := cut?_eq_some_iff.mp hcut
        cases h
        obtain ⟨hlast, hsep⟩ := ih after.length (by simp; omega) rfl rfl
        have happend : ∀ x, '/' :: '*' :: body ++ '*' :: '/' :: x =
            '/' :: '*' :: (body ++ '*' :: '/' :: x) := fun x => rfl
        rw [happend]
        exact ⟨hlast.block hbody, fun hr => .block hbody (hsep hr)⟩
      · cases h
        exact ⟨Separates.nil.last, fun _ => .nil⟩
    · next c r' _ _ =>
      split at h
      · next hc =>
        cases h
        obtain ⟨hlast, hsep⟩ := ih r'.length (by simp) rfl rfl
        exact ⟨hlast.blank hc, fun hr => .blank hc (hsep hr)⟩
      · cases h
        exact ⟨Separates.nil.last, fun _ => .nil⟩

/-- Behind a gap no gap starts. -/
theorem splitGap_of_splitGap {t g r : Text} (h : splitGap t = (g, r)) : splitGap r = ([], r) := by
  match r with
  | [] => rw [splitGap]
  | c :: r =>
    have happend := splitGap_append t
    rw [h] at happend
    have hsep := (separates_of_splitGap h).2 (by simp)
    rw [← happend, splitGap_append_of_separates hsep] at h
    obtain ⟨hnil, hrest⟩ := Prod.mk.inj h
    exact Prod.ext (List.append_right_eq_self.mp hnil) hrest

/-! ### Cuts in front of a text -/

/-- The text does not start with a comment. -/
def Bare (t : Text) : Prop := ∀ u, t ≠ '/' :: '/' :: u ∧ t ≠ '/' :: '*' :: u

theorem Bare.of_prefix {s t : Text} (h : Bare t) (hs : s <+: t) : Bare s := by
  obtain ⟨w, rfl⟩ := hs
  refine fun u => ⟨?_, ?_⟩
  · rintro rfl
    exact (h (u ++ w)).1 rfl
  · rintro rfl
    exact (h (u ++ w)).2 rfl

/-- The cut is read in front of a text that holds its comments. -/
structure Cut.Reads (c : Cut) (t : Text) : Prop where
  separates : Separates c.gap
  bare : Bare (c.text ++ t)
  reads : first? (c.text ++ t) = some (c.token, c.text)

/-- The cuts are read one after the other in front of a text that holds its comments. -/
def Reading : List Cut → Text → Prop
  | [], _ => True
  | c :: cs, t => c.Reads (raw cs ++ t) ∧ Reading cs t

section Cuts

variable {c : Cut} {cs ds : List Cut} {t v v' g : Text}

theorem reading_append : Reading (cs ++ ds) t ↔ Reading cs (raw ds ++ t) ∧ Reading ds t := by
  induction cs with
  | nil => simp [Reading]
  | cons c cs ih => simp [Reading, ih, and_assoc]

theorem Cut.Reads.text_ne_nil (h : c.Reads t) : c.text ≠ [] := (exists_of_first? h.reads).2.1

/-- No blank starts a token. -/
theorem isBlank_of_first? {x : Char} {r l : Text} {k : Token} (h : first? (x :: r) = some (k, l)) :
    isBlank x = false := by
  obtain ⟨⟨w, hw⟩, hne, hl⟩ := exists_of_first? h
  obtain ⟨y, l, rfl⟩ := List.exists_cons_of_ne_nil hne
  obtain ⟨rfl, -⟩ := List.cons.inj hw
  rcases hl with hl | ⟨raw, hl, -⟩
  · have hsolid := hl y (List.mem_cons_self ..)
    simp only [isSolid, Bool.and_eq_true, Bool.not_eq_true'] at hsolid
    exact hsolid.1
  · cases (List.cons.inj hl).1
    rfl

theorem Cut.Reads.tokensFrom_eq (h : c.Reads t) (o : Nat) :
    tokensFrom o (c.gap ++ (c.text ++ t)) =
      (tokensFrom (o + Text.size c.gap + Text.size c.text) t).map
        (⟨c.token, ⟨o + Text.size c.gap, o + Text.size c.gap + Text.size c.text⟩⟩ :: ·) := by
  obtain ⟨hgap, hbare, hread⟩ := h
  obtain ⟨x, l, hxl⟩ := List.exists_cons_of_ne_nil (exists_of_first? hread).2.1
  rw [hxl, List.cons_append] at hbare hread ⊢
  have hsplit : splitGap (c.gap ++ x :: (l ++ t)) = (c.gap, x :: (l ++ t)) := by
    rw [splitGap_append_of_separates hgap,
      splitGap_of_ne_comment (isBlank_of_first? hread) hbare, List.append_nil]
  rw [tokensFrom_of_splitGap o hsplit, startsComment_eq_false fun u => (hbare u).2, hread]
  simp

theorem tokensFrom_of_separatesLast (o : Nat) (h : SeparatesLast g) : tokensFrom o g = .ok [] := by
  rw [tokensFrom]
  split
  · rfl
  · next heq =>
    rw [splitGap_of_separatesLast h] at heq
    cases heq

/-- **Cuts are read one after the other**, and then the text that follows. -/
theorem Reading.tokensFrom_append (h : Reading cs t) (o : Nat) :
    tokensFrom o (raw cs ++ t) =
      (tokensFrom (o + Text.size (raw cs)) t).map (lexemes o cs ++ ·) := by
  induction cs generalizing o with
  | nil =>
    rw [raw_nil, List.nil_append, Text.size_nil, Nat.add_zero]
    cases tokensFrom o t <;> rfl
  | cons c cs ih =>
    rw [raw_cons, List.append_assoc, List.append_assoc, h.1.tokensFrom_eq, ih h.2]
    rw [Text.size_append, Text.size_append, ← Nat.add_assoc, ← Nat.add_assoc]
    cases tokensFrom (o + Text.size c.gap + Text.size c.text + Text.size (raw cs)) t <;> rfl

/-- Cuts in front of a last gap are the tokens of a text. -/
theorem Reading.tokensFrom_eq (h : Reading cs g) (hg : SeparatesLast g) (o : Nat) :
    tokensFrom o (raw cs ++ g) = .ok (lexemes o cs) := by
  rw [h.tokensFrom_append, tokensFrom_of_separatesLast _ hg]
  simp [Except.map]

/-- What is read in front of a text that starts with no gap and no comment is a cut. -/
theorem reads_of_first? {g t l : Text} {k : Token} (hg : Separates g) (hgap : splitGap t = ([], t))
    (hstart : startsComment t = false) (h : first? t = some (k, l)) :
    ∃ t', t = l ++ t' ∧ Cut.Reads ⟨g, k, l⟩ t' := by
  obtain ⟨⟨t', rfl⟩, -, -⟩ := exists_of_first? h
  refine ⟨t', rfl, hg, fun u => ⟨fun hu => ?_, fun hu => ?_⟩, h⟩
  · rw [hu, splitGap_line] at hgap
    cases hgap
  · rw [hu] at hstart
    cases hstart

/-- **The lexer reads cuts as long as there is something to read.**  Behind them there is a
last gap, and if the text does not end there, what follows is neither a gap nor a token. -/
theorem exists_reading (o : Nat) (t : Text) :
    ∃ cs g rest, t = raw cs ++ (g ++ rest) ∧ Reading cs (g ++ rest) ∧ SeparatesLast g ∧
      match tokensFrom o t with
      | .ok ls => rest = [] ∧ ls = lexemes o cs
      | .error r => r = rest ∧ rest ≠ [] ∧ splitGap rest = ([], rest) ∧
          (startsComment rest = true ∨ first? rest = none) := by
  induction hn : t.length using Nat.strongRecOn generalizing t o with
  | ind n ih =>
    subst hn
    obtain ⟨⟨g, r⟩, hgap⟩ : ∃ x, splitGap t = x := ⟨_, rfl⟩
    obtain ⟨hlast, hsep⟩ := separates_of_splitGap hgap
    have hrest := splitGap_of_splitGap hgap
    have happend : g ++ r = t := by
      have := splitGap_append t
      rwa [hgap] at this
    subst happend
    cases r with
    | nil =>
      refine ⟨[], g, [], rfl, trivial, hlast, ?_⟩
      rw [List.append_nil, tokensFrom_of_separatesLast o hlast]
      exact ⟨rfl, rfl⟩
    | cons c r =>
      by_cases hstart : startsComment (c :: r) = true
      · refine ⟨[], g, c :: r, rfl, trivial, hlast, ?_⟩
        rw [tokensFrom_of_splitGap o hgap, if_pos hstart]
        exact ⟨rfl, by simp, hrest, .inl hstart⟩
      · cases hfirst : first? (c :: r) with
        | none =>
          refine ⟨[], g, c :: r, rfl, trivial, hlast, ?_⟩
          rw [tokensFrom_of_splitGap o hgap, if_neg hstart, hfirst]
          exact ⟨rfl, by simp, hrest, .inr rfl⟩
        | some kl =>
          obtain ⟨k, l⟩ := kl
          obtain ⟨t', ht', hcut⟩ :=
            reads_of_first? (hsep (by simp)) hrest (by simpa using hstart) hfirst
          have hlt : t'.length < (g ++ c :: r).length := by
            have hpos : 0 < l.length := List.length_pos_iff.mpr hcut.text_ne_nil
            rw [ht', List.length_append, List.length_append]
            omega
          obtain ⟨cs, g', rest, rfl, hcs, hg', hmatch⟩ :=
            ih _ hlt (o + Text.size g + Text.size l) t' rfl
          refine ⟨⟨g, k, l⟩ :: cs, g', rest, by rw [ht']; simp, ⟨hcut, hcs⟩, hg', ?_⟩
          rw [ht', hcut.tokensFrom_eq o]
          cases htail : tokensFrom (o + Text.size g + Text.size l) (raw cs ++ (g' ++ rest)) with
          | ok ls =>
            rw [htail] at hmatch
            exact ⟨hmatch.1, by rw [hmatch.2]; rfl⟩
          | error e =>
            rw [htail] at hmatch
            exact hmatch

/-! ### Cutting off what follows -/

theorem splitName_of_head (h : ∀ x ∈ t.head?, isNameStart x = false) :
    (Text.splitName t).1 = [] := by
  cases t with
  | nil => rfl
  | cons x t => simp [Text.splitName, h x rfl]

theorem Separates.head (h : Separates g) : ∀ x ∈ g.head?, isNameStart x = false := by
  cases h with
  | nil => exact nofun
  | @blank c g hc hg =>
    rintro x ⟨⟩
    simp only [isBlank, Bool.or_eq_true, beq_iff_eq] at hc
    rcases hc with ((rfl | rfl) | rfl) | rfl <;> rfl
  | line =>
    rintro x ⟨⟩
    rfl
  | block =>
    rintro x ⟨⟩
    rfl

theorem SeparatesLast.head (h : SeparatesLast g) : ∀ x ∈ g.head?, isNameStart x = false := by
  obtain ⟨a, b, rfl, ha, hb⟩ := h
  cases a with
  | cons y a => exact ha.head
  | nil =>
    rcases hb with rfl | ⟨body, rfl, -⟩
    · exact nofun
    · rintro x ⟨⟩
      rfl

/-- The word that cuts start with does not depend on what follows them. -/
theorem Reading.splitName_eq (hcs : cs ≠ []) (h : Reading cs v) (h' : Reading cs v') :
    (Text.splitName (raw cs ++ v')).1 = (Text.splitName (raw cs ++ v)).1 := by
  obtain ⟨d, ds, rfl⟩ := List.exists_cons_of_ne_nil hcs
  obtain ⟨gap, k, l⟩ := d
  obtain ⟨x, l, rfl⟩ := List.exists_cons_of_ne_nil h.1.text_ne_nil
  by_cases hword : gap = [] ∧ isNameStart x = true
  · obtain ⟨rfl, hx⟩ := hword
    have hname : ∀ {w}, Reading (⟨[], k, x :: l⟩ :: ds) w →
        (Text.splitName (raw (⟨[], k, x :: l⟩ :: ds) ++ w)).1 = x :: l := by
      intro w hw
      have hread := hw.1.reads
      rw [List.cons_append, first?_of_isNameStart hx] at hread
      have hsplit := (word?_eq_some_iff.mp hread).1
      rw [raw_cons, List.nil_append, List.append_assoc]
      exact hsplit
    rw [hname h, hname h']
  · have hnone : ∀ w, (Text.splitName (raw (⟨gap, k, x :: l⟩ :: ds) ++ w)).1 = [] := by
      intro w
      refine splitName_of_head fun y hy => ?_
      cases gap with
      | cons z gap => exact h.1.separates.head y hy
      | nil =>
        cases hy
        simpa using hword
    rw [hnone, hnone]

/-- **The cuts are read in the same way if what follows their last gap is cut off.** -/
theorem Reading.cutOff (h : Reading cs v) (hg : SeparatesLast g) (hv : g <+: v) :
    Reading cs g := by
  induction cs with
  | nil => exact trivial
  | cons c cs ih =>
    have htail : Reading cs g := ih h.2
    have hfront : raw cs ++ g <+: raw cs ++ v := (List.prefix_append_right_inj _).mpr hv
    have hcut : CutOff (raw cs ++ g) (raw cs ++ v) := by
      refine ⟨hfront, ?_⟩
      by_cases hcs : cs = []
      · subst hcs
        obtain ⟨w, rfl⟩ := hv
        cases g with
        | nil => exact .inl rfl
        | cons x g =>
          refine .inr ?_
          rw [raw_nil, List.nil_append, List.nil_append, splitName_of_head hg.head,
            splitName_of_head (t := x :: g ++ w) hg.head]
      · exact .inr (Reading.splitName_eq hcs h.2 htail)
    exact ⟨⟨h.1.separates, h.1.bare.of_prefix ((List.prefix_append_right_inj _).mpr hfront),
      first?_cutOff h.1.reads hcut⟩, htail⟩

/-- A token is read by itself. -/
theorem Cut.Reads.tokens_text (h : c.Reads t) :
    tokens c.text = .ok [⟨c.token, ⟨0, Text.size c.text⟩⟩] := by
  have hread := first?_cutOff h.reads (cutOff_nil t)
  have hbare := h.bare.of_prefix ⟨t, rfl⟩
  have halone : Reading [⟨[], c.token, c.text⟩] [] :=
    ⟨⟨.nil, by simpa using hbare, hread⟩, trivial⟩
  have htokens := halone.tokensFrom_eq Separates.nil.last 0
  simpa [tokens, lexemes] using htokens

/-! ### Spans -/

theorem exists_of_lexemes_eq {o : Nat} {a b : List Lexeme} {x : Lexeme}
    (h : lexemes o cs = a ++ x :: b) :
    ∃ cs₁ c cs₂, cs = cs₁ ++ c :: cs₂ ∧ a = lexemes o cs₁ ∧
      x = ⟨c.token, ⟨o + Text.size (raw cs₁) + Text.size c.gap,
        o + Text.size (raw cs₁) + Text.size c.gap + Text.size c.text⟩⟩ := by
  obtain ⟨cs₁, ds, rfl, rfl, hx⟩ := exists_of_lexemes_eq_append h
  cases ds with
  | nil => cases hx
  | cons c cs₂ =>
    obtain ⟨rfl, -⟩ := List.cons.inj hx
    exact ⟨cs₁, c, cs₂, rfl, rfl, rfl⟩

theorem le_start_of_mem_lexemes {o : Nat} {x : Lexeme} (h : x ∈ lexemes o cs) :
    o ≤ x.span.start := by
  obtain ⟨a, b, hab⟩ := List.append_of_mem h
  obtain ⟨cs₁, c, cs₂, -, -, rfl⟩ := exists_of_lexemes_eq hab
  rw [Nat.add_assoc]
  exact Nat.le_add_right ..

theorem pairwise_lexemes (o : Nat) (cs : List Cut) :
    (lexemes o cs).Pairwise fun a b => a.span.stop ≤ b.span.start := by
  induction cs generalizing o with
  | nil => exact .nil
  | cons c cs ih => exact .cons (fun x => le_start_of_mem_lexemes) (ih _)

/-- Where the last one of some tokens ends. -/
def endOf (ls : List Lexeme) : Nat := (ls.getLast?.map (·.span.stop)).getD 0

theorem endOf_lexemes (cs : List Cut) : endOf (lexemes 0 cs) = Text.size (raw cs) := by
  rcases List.eq_nil_or_concat cs with rfl | ⟨cs, c, rfl⟩
  · rfl
  · simp [endOf, lexemes, Nat.add_assoc]

/-- The mark at the end of a text. -/
def endMark (t : Text) : Lexeme := ⟨.eof, ⟨Text.size t, Text.size t⟩⟩

/-- The tokens `ls` of a text and the gaps in front of them and behind them make up the
text. -/
structure Partitions (code : Text) (ls : List Lexeme) : Prop where
  /-- The tokens stand one after the other. -/
  ordered : ls.Pairwise fun a b => a.span.stop ≤ b.span.start
  /-- Each token takes up characters of the text, and these are read as that token. -/
  token : ∀ x ∈ ls, x.span.start < x.span.stop ∧ x.span.stop ≤ Text.size code ∧
    ∃ l, Text.slice? x.span.start x.span.stop code = some l ∧
      ∀ q : Preprocessed, q.code = l →
        lex q = .ok [⟨x.token, ⟨0, Text.size l⟩⟩, endMark l]
  /-- In front of each token and of the end there are only blanks and whole comments. -/
  gap : ∀ a x b, ls ++ [endMark code] = a ++ x :: b →
    ∃ g, Text.slice? (endOf a) x.span.start code = some g ∧
      if b = [] then SeparatesLast g else Separates g

theorem Reading.partitions (h : Reading cs g) (hg : SeparatesLast g) :
    Partitions (raw cs ++ g) (lexemes 0 cs) := by
  refine ⟨pairwise_lexemes 0 cs, fun x hx => ?_, fun a x b hab => ?_⟩
  · obtain ⟨a, b, hab⟩ := List.append_of_mem hx
    obtain ⟨cs₁, c, cs₂, rfl, -, rfl⟩ := exists_of_lexemes_eq hab
    have hc := (reading_append.mp h).2.1
    have hpos := Text.size_pos hc.text_ne_nil
    have hslice := Text.slice?_append (raw cs₁ ++ c.gap) c.text (raw cs₂ ++ g)
    refine ⟨by simpa using hpos, by simp; omega, c.text, by simpa using hslice, ?_⟩
    intro q hq
    rw [lex, hq, hc.tokens_text]
    rfl
  · rcases List.eq_nil_or_concat b with rfl | ⟨b, y, rfl⟩
    · -- The last gap stands in front of the mark.
      obtain ⟨rfl, hx⟩ := List.append_inj' hab rfl
      cases hx
      refine ⟨g, ?_, hg⟩
      have hslice := Text.slice?_append (raw cs) g []
      rw [endOf_lexemes]
      simpa [endMark] using hslice
    · have hab' : lexemes 0 cs = a ++ x :: b := by
        have happend : a ++ x :: (b ++ [y]) = (a ++ x :: b) ++ [y] := by simp
        rw [List.concat_eq_append, happend] at hab
        exact (List.append_inj' hab rfl).1
      obtain ⟨cs₁, c, cs₂, rfl, rfl, rfl⟩ := exists_of_lexemes_eq hab'
      have hc := (reading_append.mp h).2.1
      have hslice := Text.slice?_append (raw cs₁) c.gap (c.text ++ raw cs₂ ++ g)
      refine ⟨c.gap, ?_, by simpa using hc.separates⟩
      rw [endOf_lexemes]
      simpa using hslice

end Cuts

/-- **The lexer loses nothing and no tokens overlap.**  If it succeeds, the tokens in front
of the mark at the end and the gaps around them make up the text, and each token can be
read by itself.  If it fails, the location that it reports is that of the character at which
neither a gap nor a token starts, and the text in front of that character can be cut into
tokens. -/
theorem lex_partition (p : Preprocessed) :
    match lex p with
    | .ok ls => ∃ ts, ls = ts ++ [endMark p.code] ∧ Partitions p.code ts
    | .error e => ∃ before rest, p.code = before ++ rest ∧ rest ≠ [] ∧
        splitGap rest = ([], rest) ∧ (startsComment rest = true ∨ first? rest = none) ∧
        (∃ location, location = (p.location? (Text.size before)).getD .nowhere ∧
          (e = .unexpectedEndOfStream location ∨ ∃ snippet, e = .failedToParse location snippet)) ∧
        ∀ q : Preprocessed, q.code = before → ∃ ts, lex q = .ok (ts ++ [endMark before]) ∧
          Partitions before ts := by
  obtain ⟨cs, g, rest, hcode, hread, hg, hmatch⟩ := exists_reading 0 p.code
  have hbefore : Reading cs g := hread.cutOff hg ⟨rest, rfl⟩
  unfold lex tokens
  cases htokens : tokensFrom 0 p.code with
  | ok ls =>
    rw [htokens] at hmatch
    obtain ⟨rfl, rfl⟩ := hmatch
    rw [List.append_nil] at hcode
    refine ⟨lexemes 0 cs, rfl, ?_⟩
    rw [hcode]
    exact hbefore.partitions hg
  | error r =>
    rw [htokens] at hmatch
    obtain ⟨rfl, hne, hgap, hnone⟩ := hmatch
    have hoffset : Text.size p.code - Text.size r = Text.size (raw cs ++ g) := by
      rw [hcode, ← List.append_assoc, Text.size_append _ r, Nat.add_sub_cancel]
    refine ⟨raw cs ++ g, r, by rw [hcode, List.append_assoc], hne, hgap, hnone, ⟨_, rfl, ?_⟩, ?_⟩
    · simp only [errorAt, hoffset]
      split
      · exact .inl rfl
      · exact .inr ⟨_, rfl⟩
    · intro q hq
      rw [hq]
      exact ⟨lexemes 0 cs, by rw [hbefore.tokensFrom_eq hg]; rfl, hbefore.partitions hg⟩

end PixelWrap.Token
