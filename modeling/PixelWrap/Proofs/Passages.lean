import PixelWrap.Proofs.Plain
import PixelWrap.Proofs.Rereading
import PixelWrap.Proofs.Spelling

/-!
# Parts of a source that can stand elsewhere

The tokens of the parts of a function are cut out of the source.  If the source holds no
directives, each part is shown as it is written, its cuts are read in the same way in front
of another text, and no directive comes about where it is put.

## Main definitions

* `Laid`: tokens stand as the cuts of a text say.
* `Movable`, `Passage`: the cuts of a stretch of tokens can stand elsewhere.
* `PlainSource`: a source without directives and its cuts.

## Main results

* `Preprocessed.Shows.sourceOf_lexemes`: a stretch of tokens is shown as it is written.
* `PlainSource.exists_passages`: **the parts of a function are such passages.**
-/

namespace PixelWrap

open Comment (blank)
open Preprocessed (Shows)
open Token
open Decl.Grammar (sourceOf)

/-! ### Stretches of tokens -/

namespace Token

variable {cs ds : List Cut} {o : Nat}

theorem exists_of_lexemes_eq_append {xs ys : List Lexeme} (h : lexemes o cs = xs ++ ys) :
    ∃ as bs, cs = as ++ bs ∧ xs = lexemes o as ∧ ys = lexemes (o + Text.size (raw as)) bs := by
  induction xs generalizing o cs with
  | nil => exact ⟨[], cs, rfl, rfl, h.symm⟩
  | cons x xs ih =>
    cases cs with
    | nil => cases h
    | cons c cs =>
      obtain ⟨rfl, hrest⟩ := List.cons.inj h
      obtain ⟨as, bs, rfl, rfl, rfl⟩ := ih hrest
      exact ⟨c :: as, bs, rfl, rfl, by simp [Nat.add_assoc]⟩

/-- A stretch of tokens that does not go to the end is one of cuts. -/
theorem exists_of_lexemes_concat_eq {before ws after : List Lexeme} {e : Lexeme}
    (hsplit : lexemes 0 cs ++ [e] = before ++ (ws ++ after))
    (hws : ∀ t ∈ ws.getLast?, t ≠ e) (hne : ws ≠ []) :
    ∃ as bs ds, cs = as ++ (bs ++ ds) ∧ ws = lexemes (Text.size (raw as)) bs ∧
      after = lexemes (Text.size (raw as) + Text.size (raw bs)) ds ++ [e] := by
  rcases List.eq_nil_or_concat after with rfl | ⟨after, e', rfl⟩
  · have hlast := congrArg List.getLast? hsplit
    rw [List.append_nil, List.getLast?_concat, List.getLast?_append,
      List.getLast?_eq_some_getLast hne, Option.some_or] at hlast
    exact absurd (Option.some.inj hlast).symm (hws _ (List.getLast?_eq_some_getLast hne))
  · rw [List.concat_eq_append, ← List.append_assoc, ← List.append_assoc] at hsplit
    obtain ⟨hcs, heq⟩ := List.append_inj' hsplit rfl
    cases heq
    rw [List.append_assoc] at hcs
    obtain ⟨as, bs, rfl, -, hrest⟩ := exists_of_lexemes_eq_append hcs
    obtain ⟨bs, ds, rfl, rfl, rfl⟩ := exists_of_lexemes_eq_append hrest.symm
    rw [Nat.zero_add, List.concat_eq_append]
    exact ⟨as, bs, ds, rfl, rfl, rfl⟩

theorem spanOf_lexemes (o : Nat) (c : Cut) (cs : List Cut) :
    Decl.spanOf (lexemes o (c :: cs)) =
      ⟨o + Text.size c.gap, o + Text.size c.gap + Text.size (written (c :: cs))⟩ := by
  rcases List.eq_nil_or_concat cs with rfl | ⟨ds, d, rfl⟩
  · simp [lexemes, Decl.spanOf, Span.join]
  · rw [lexemes, List.concat_eq_append, lexemes_append]
    simp only [lexemes, Decl.spanOf_concat, Span.join, written_cons, raw_append, raw_cons, raw_nil,
      Text.size_append, Text.size_nil, Span.mk.injEq]
    omega

end Token

/-- A stretch of tokens is shown as it is written. -/
theorem Preprocessed.Shows.sourceOf_lexemes {p : Preprocessed} {lead tail v : Text}
    {as bs cs : List Cut} (h : Shows p lead tail)
    (hraw : lead ++ tail = raw (as ++ (bs ++ cs)) ++ v) (hs : Standing (as ++ (bs ++ cs)) v)
    (hlead : ∀ c ∈ (as ++ (bs ++ cs)).head?, lead <+: c.gap) (hbs : bs ≠ []) :
    sourceOf p (lexemes (Text.size (raw as)) bs) = written bs := by
  obtain ⟨b, bs, rfl⟩ := List.exists_cons_of_ne_nil hbs
  -- The stretch starts behind `lead`.
  obtain ⟨a, ha⟩ : lead <+: raw as ++ b.gap := by
    cases as with
    | nil => exact hlead b rfl
    | cons c as =>
      refine (hlead c rfl).trans ?_
      rw [raw_cons, List.append_assoc]
      exact List.prefix_append _ _
  have htail : tail = a ++ (written (b :: bs) ++ (raw cs ++ v)) := by
    refine List.append_cancel_left (hraw.trans ?_)
    rw [← List.append_assoc lead, ha]
    simp
  have hne : written (b :: bs) ≠ [] := by
    have htext := (standing_append.mp hs).2.1.text_ne_nil
    simp [htext]
  rw [Decl.sourceOf_eq p (by rintro ⟨⟩), spanOf_lexemes, ← Text.size_append, ← ha]
  exact h.sourceText _ _ _ htail hne

/-- The tokens `ts` are those of the cuts, and each stretch of them is shown as it is
written. -/
structure Laid (p : Preprocessed) (cs : List Cut) (ts : List Lexeme) : Prop where
  kinds_eq : Decl.kinds ts = cs.map Cut.token
  sourceOf_eq : ∀ (as bs ds : List Cut) (xs ys zs : List Lexeme), cs = as ++ (bs ++ ds) →
    ts = xs ++ (ys ++ zs) → xs.length = as.length → ys.length = bs.length → bs ≠ [] →
    sourceOf p ys = written bs

theorem length_lexemes (o : Nat) (cs : List Cut) : (lexemes o cs).length = cs.length := by
  induction cs generalizing o with
  | nil => rfl
  | cons c cs ih => rw [lexemes, List.length_cons, List.length_cons, ih]

/-- **The tokens of a text that is shown are laid out.** -/
theorem Preprocessed.Shows.laid {p : Preprocessed} {lead tail v : Text} {cs : List Cut}
    (h : Shows p lead tail) (hraw : lead ++ tail = raw cs ++ v) (hs : Standing cs v)
    (hlead : ∀ c ∈ cs.head?, lead <+: c.gap) : Laid p cs (lexemes 0 cs) := by
  refine ⟨map_token_lexemes 0, ?_⟩
  rintro as bs ds xs ys zs rfl hts hxs hys hbs
  rw [lexemes_append, lexemes_append, Nat.zero_add] at hts
  obtain ⟨-, hrest⟩ := List.append_inj hts (by rw [hxs, length_lexemes])
  obtain ⟨rfl, -⟩ := List.append_inj hrest (by rw [hys, length_lexemes])
  exact h.sourceOf_lexemes hraw hs hlead hbs

namespace Laid

variable {p : Preprocessed} {as bs : List Cut} {ts : List Lexeme}

theorem length_eq (h : Laid p bs ts) : ts.length = bs.length := by
  have hlength := congrArg List.length h.kinds_eq
  simpa [Decl.kinds] using hlength

theorem exists_append (h : Laid p (as ++ bs) ts) :
    ∃ xs ys, ts = xs ++ ys ∧ Laid p as xs ∧ Laid p bs ys := by
  have hkinds := h.kinds_eq
  rw [List.map_append] at hkinds
  obtain ⟨xs, ys, rfl, hxs, hys⟩ := Decl.kinds_eq_append hkinds
  have hlength : xs.length = as.length := by
    have := congrArg List.length hxs
    simpa [Decl.kinds] using this
  refine ⟨xs, ys, rfl, ⟨hxs, ?_⟩, ⟨hys, ?_⟩⟩
  · rintro as' bs' ds xs' ys' zs rfl rfl hx hy hne
    exact h.sourceOf_eq as' bs' (ds ++ bs) xs' ys' (zs ++ ys) (by simp) (by simp) hx hy hne
  · rintro as' bs' ds xs' ys' zs rfl rfl hx hy hne
    refine h.sourceOf_eq (as ++ as') bs' ds (xs ++ xs') ys' zs ?_ ?_ ?_ hy hne
    · simp
    · simp
    · rw [List.length_append, List.length_append, hlength, hx]

theorem exists_cons {c : Cut} (h : Laid p (c :: bs) ts) :
    ∃ t us, ts = t :: us ∧ t.token = c.token ∧ Laid p bs us := by
  have happend : Laid p ([c] ++ bs) ts := h
  obtain ⟨xs, us, rfl, hxs, hus⟩ := happend.exists_append
  obtain ⟨t, _, rfl, ht, hnil⟩ := Decl.kinds_eq_cons hxs.kinds_eq
  cases Decl.kinds_eq_nil hnil
  exact ⟨t, us, rfl, ht, hus⟩

theorem sourceOf_all (h : Laid p bs ts) (hbs : bs ≠ []) : sourceOf p ts = written bs :=
  h.sourceOf_eq [] bs [] [] ts [] (by simp) (by simp) rfl h.length_eq hbs

end Laid

/-! ### Passages -/

/-- The cuts can stand elsewhere, and no directive comes about there. -/
structure Movable (cs : List Cut) : Prop where
  ne_nil : cs ≠ []
  standing : ∀ v, HardHead (blank v) → Standing cs v
  isQuiet : quiet true (blanked (regap [] cs)) = true

/-- The cuts of the tokens `ts` are shown as they are written and can stand elsewhere. -/
structure Passage (p : Preprocessed) (ts : List Lexeme) (cs : List Cut) : Prop
    extends Movable cs where
  kinds_eq : Decl.kinds ts = cs.map Cut.token
  sourceOf_eq : sourceOf p ts = written cs

/-- The token starts a part of a function. -/
def startsPart (k : Token) : Bool := isWord k || k == .symbol .leftBrace

namespace Token

variable {c : Cut} {cs : List Cut} {t : Text}

/-- A part of a function starts with a character that starts no directive. -/
theorem Cut.Stands.exists_text_eq (h : c.Stands t) (hc : startsPart c.token = true) :
    ∃ x l, c.text = x :: l ∧ isSpace x = false ∧ x ≠ '#' := by
  obtain ⟨x, l, hx⟩ := List.exists_cons_of_ne_nil h.text_ne_nil
  refine ⟨x, l, hx, ?_⟩
  rw [startsPart, Bool.or_eq_true, beq_iff_eq] at hc
  rcases hc with hc | hc
  · have hchar := (of_first?_word h.reads hc).2.1 x (by rw [hx]; rfl)
    refine ⟨Condition.isSpace_of_isNameChar hchar, ?_⟩
    rintro rfl
    cases hchar
  · have hall : symbols.all (fun s => s.2 != .leftBrace || s.1 == ['\x7b']) = true := by decide
    have hmem := List.all_eq_true.mp hall _ (h.exists_symbol hc)
    simp only [bne_self_eq_false, Bool.false_or, beq_iff_eq] at hmem
    rw [hmem] at hx
    cases hx
    exact ⟨by decide, by decide⟩

/-- What is quiet within a text is quiet on its own if it starts no directive. -/
theorem quiet_blanked_regap {start : Bool} (h : Standing cs t) (hne : cs ≠ [])
    (hc : ∀ c ∈ cs.head?, startsPart c.token = true) (hq : quiet start (blanked cs) = true) :
    quiet true (blanked (regap [] cs)) = true := by
  obtain ⟨c, cs, rfl⟩ := List.exists_cons_of_ne_nil hne
  obtain ⟨x, l, hx, hspace, hhash⟩ := h.1.exists_text_eq (hc c rfl)
  rw [blanked_cons] at hq
  obtain ⟨-, start', hq⟩ := quiet_of_append hq
  have hregap : blanked (regap [] (c :: cs)) = c.text ++ blanked cs := by
    rw [regap, blanked_cons]
    rfl
  rw [hregap, hx]
  rw [hx] at hq
  exact quiet_cons hspace hhash hq

/-- Cuts whose last one is not looked behind are read in front of any text that no word goes
on with. -/
theorem Standing.of_last {d : Cut} {ds : List Cut} (h : Standing (cs ++ [d] ++ ds) t)
    (hd : isClose d.token = true ∨ isWord d.token = true ∧
      ∃ u ∈ ds.head?, isWord u.token = true ∨ isStop u.token = true)
    {v : Text} (hv : HardHead (blank v)) : Standing (cs ++ [d]) v := by
  obtain ⟨hcs, hds⟩ := standing_append.mp h
  have hstands : d.Stands (raw ds ++ t) := (standing_append.mp hcs).2.1
  rcases hd with hd | ⟨hd, u, hu, hword⟩
  · exact hcs.follow (hstands.shut_of_isClose hd _) (hstands.shut_of_isClose hd _)
  · have hhard : HardHead (blank (raw ds ++ t)) := by
      obtain ⟨ds, rfl⟩ := List.head?_eq_some_iff.mp hu
      rcases hword with hword | hstop
      · have hboth : Standing (d :: u :: ds) t := ⟨hstands, hds⟩
        exact hboth.hardHead_of_isWord hd hword
      · exact hds.hardHead_of_isStop hstop
    exact hcs.follow (hstands.shut_of_isWord hd hhard) (hstands.shut_of_isWord hd hv)

end Token

/-- A source without directives, and its cuts. -/
structure PlainSource (p : Preprocessed) (cs : List Cut) (v : Text) : Prop where
  isShown : Shows p [] (raw cs ++ v)
  standing : Standing cs v
  isQuiet : quiet true (blank (raw cs ++ v)) = true

namespace PlainSource

variable {p : Preprocessed} {cs : List Cut} {v : Text}

/-- **A stretch of tokens that is not looked behind is a passage.** -/
theorem exists_passage (h : PlainSource p cs v) {before ws after : List Lexeme} {e : Lexeme}
    (hsplit : lexemes 0 cs ++ [e] = before ++ (ws ++ after)) (he : e.token = .eof)
    (hhead : ∀ k ∈ (Decl.kinds ws).head?, startsPart k = true) {k : Token}
    (hk : (Decl.kinds ws).getLast? = some k)
    (hlast : isClose k = true ∨ isWord k = true ∧
      ∃ u ∈ after.head?, isWord u.token = true ∨ isStop u.token = true) :
    ∃ bs, Passage p ws bs := by
  have hne : ws ≠ [] := by
    rintro rfl
    cases hk
  have hws : ∀ t ∈ ws.getLast?, t ≠ e := by
    rintro t ht rfl
    rw [Decl.kinds, List.getLast?_map, ht] at hk
    cases hk
    rw [he] at hlast
    rcases hlast with hlast | ⟨hlast, -⟩ <;> cases hlast
  obtain ⟨as, bs, ds, rfl, rfl, rfl⟩ := exists_of_lexemes_concat_eq hsplit hws hne
  have hkinds : Decl.kinds (lexemes (Text.size (raw as)) bs) = bs.map Cut.token :=
    map_token_lexemes _
  have hbs : bs ≠ [] := by
    rintro rfl
    exact hne rfl
  have hstanding := (standing_append.mp h.standing).2
  refine ⟨bs, ⟨hbs, fun w hw => ?_, ?_⟩, hkinds, ?_⟩
  · rw [hkinds] at hk
    rcases List.eq_nil_or_concat bs with rfl | ⟨bs, d, rfl⟩
    · exact absurd rfl hbs
    rw [List.concat_eq_append] at hk hstanding ⊢
    rw [List.map_append, List.map_singleton, List.getLast?_concat] at hk
    cases hk
    refine hstanding.of_last (hlast.imp_right ?_) hw
    rintro ⟨hword, u, hu, hnext⟩
    refine ⟨hword, ?_⟩
    cases ds with
    | nil =>
      cases hu
      rw [he] at hnext
      rcases hnext with hnext | hnext <;> cases hnext
    | cons c ds =>
      cases hu
      exact ⟨c, rfl, hnext⟩
  · have hq := h.isQuiet
    rw [h.standing.blank_append, blanked_append, blanked_append, List.append_assoc] at hq
    obtain ⟨-, start, hq⟩ := quiet_of_append hq
    rw [List.append_assoc] at hq
    refine quiet_blanked_regap (standing_append.mp hstanding).1 hbs ?_ (quiet_of_append hq).1
    intro c hc
    refine hhead c.token ?_
    rw [hkinds, List.head?_map, hc]
    rfl
  · exact h.isShown.sourceOf_lexemes rfl h.standing (fun c _ => List.nil_prefix) hbs

/-- **The parts of a function are passages.** -/
theorem exists_passages (h : PlainSource p cs v) {e : Lexeme} (he : e.token = .eof) {f : Function}
    {type body : List Lexeme} {params : List (List Lexeme)}
    (hf : Decl.Parts p (lexemes 0 cs ++ [e]) f type params body) :
    (∃ bs, Passage p type bs) ∧ (∀ ws ∈ params, ∃ bs, Passage p ws bs) ∧
      ∃ bs, Passage p body bs := by
  refine ⟨?_, fun ws hws => ?_, ?_⟩
  · obtain ⟨before, t, after, hsplit, ht⟩ := hf.type_within
    obtain ⟨k, hk, hlast⟩ := hf.isType.last
    obtain ⟨k', hk', hhead⟩ := hf.isType.head
    refine h.exists_passage hsplit he (fun k hk => ?_) hk ?_
    · rw [hk'] at hk
      cases hk
      rcases hhead with rfl | ⟨n, rfl⟩ <;> rfl
    · rcases hlast with hlast | rfl
      · exact .inr ⟨hlast, t, rfl, .inl ht⟩
      · exact .inl rfl
  · obtain ⟨hparam, before, after, hsplit, u, r, rfl, hu⟩ := hf.params_within ws hws
    obtain ⟨k, hk, hlast⟩ := hparam.last
    obtain ⟨k', hk', hhead⟩ := hparam.head
    refine h.exists_passage hsplit he (fun k hk => ?_) hk ?_
    · rw [hk'] at hk
      cases hk
      rw [startsPart, hhead]
      rfl
    · rcases hlast with hlast | rfl
      · exact .inr ⟨hlast, u, rfl, .inr hu⟩
      · exact .inl rfl
  · obtain ⟨before, after, hsplit⟩ := hf.body_within
    refine h.exists_passage hsplit he (fun k hk => ?_) hf.isBody.last (.inl rfl)
    rw [hf.isBody.head] at hk
    cases hk
    rfl

end PlainSource

end PixelWrap
