import PixelWrap.Proofs.Partition

/-!
# Parameters that are printed and read again

A parameter is printed token by token with a blank between each two of them.  What is
printed is cut into the same tokens again, and the parser finds the parts of the parameter
in them, with one exception.  A modifier that is an ordinary name elsewhere counts as one
only if another name follows it, so such a modifier in front of a reserved word is taken for
the type, and the parameter cannot be read.

## Main definitions

* `Token.Spelled`, `Token.print`: tokens with their characters, and how they are printed.
* `Decl.ParamForm`: a parameter as the grammar describes it.
* `Decl.ParamForm.isClear`: no modifier that is an ordinary name stands in front of a
  reserved word.

## Main results

* `Token.reading_spaced`: what is printed is cut into the same tokens.
* `Decl.ParamForm.Stands.param_of_isClear`, `Decl.ParamForm.Stands.param_of_not_isClear`: the
  tokens of a parameter are read as that parameter, or not at all.
* `Decl.ParamForm.param_print`: **a printed parameter is read again exactly if no modifier
  that is an ordinary name stands in front of a reserved word.**
-/

namespace PixelWrap

namespace Token

/-! ### Printed tokens -/

/-- A token and the characters that spell it. -/
structure Spelled where
  /-- The token. -/
  token : Token
  /-- Its characters. -/
  text : Text
  /-- The characters are read as the token. -/
  reads : first? text = some (token, text)

/-- A word. -/
def Spelled.word (w : String) (h : Text.isName w.toList = true) : Spelled :=
  ⟨ofWord w, w.toList, by rw [first?_of_isName h, String.ofList_toList]⟩

/-- No token goes on with this text, and it does not make a comment of what stands in front
of it. -/
structure Shuts (v : Text) : Prop where
  hard : HardHead v
  head : ∀ x ∈ v.head?, x ≠ '=' ∧ x ≠ '/' ∧ x ≠ '*'

theorem shuts_cons {x : Char} (h : x = ' ' ∨ x = ',' ∨ x = ')') (v : Text) : Shuts (x :: v) := by
  constructor
  · rintro y ⟨⟩
    rcases h with rfl | rfl | rfl <;> rfl
  · rintro y ⟨⟩
    rcases h with rfl | rfl | rfl <;> decide

section Spelled

variable {l v : Text} {k : Token} {ss : List Spelled}

theorem symbol?_append_of_shuts (hv : Shuts v) (hl : l ≠ []) : symbol? (l ++ v) = symbol? l := by
  match l with
  | [] => exact absurd rfl hl
  | [c] => exact symbol?_cons_of_head fun h => (hv.head '=' h).1 rfl
  | c :: d :: r =>
    exact (symbol?_cons_cons c d (r ++ v)).trans (symbol?_cons_cons c d r).symm

theorem first?_append_of_shuts (h : first? l = some (k, l)) (hv : Shuts v) :
    first? (l ++ v) = some (k, l) := by
  have hne := (exists_of_first? h).2.1
  obtain ⟨c, r, rfl⟩ := List.exists_cons_of_ne_nil hne
  by_cases hc : c = '"'
  · subst hc
    rw [first?_quote] at h
    rw [List.cons_append, first?_quote]
    exact (exists_of_string? h).2.1 v
  · have hstring : string? (c :: r ++ v) = string? (c :: r) :=
      (string?_cons hc _).trans (string?_cons hc _).symm
    rw [first?, float?_append hv.hard, int?_append hv.hard, hstring, word?_append hv.hard,
      symbol?_append_of_shuts hv hne]
    exact h

theorem bare_append_of_shuts (h : first? l = some (k, l)) (hv : Shuts v) : Bare (l ++ v) := by
  have hstart : ∀ {d : Char} {u : Text}, d = '/' ∨ d = '*' → l ++ v ≠ '/' :: d :: u := by
    intro d u hd hu
    have hne := (exists_of_first? h).2.1
    obtain ⟨c, r, rfl⟩ := List.exists_cons_of_ne_nil hne
    obtain ⟨rfl, hrest⟩ := List.cons.inj hu
    rw [first?_of_hard rfl (by decide) (by decide)] at h
    have hslash : symbol? ['/'] = some (.symbol .slash, ['/']) := by decide
    obtain ⟨-, hr⟩ := Prod.mk.inj (Option.some.inj (h.symm.trans hslash))
    obtain ⟨-, rfl⟩ := List.cons.inj hr
    have hhead : d ∈ v.head? := by
      rw [show v = d :: u from hrest]
      rfl
    rcases hd with rfl | rfl
    · exact (hv.head _ hhead).2.1 rfl
    · exact (hv.head _ hhead).2.2 rfl
  exact fun u => ⟨hstart (.inl rfl), hstart (.inr rfl)⟩

theorem first?_ne_eof {t : Text} : first? t ≠ some (.eof, l) := by
  intro h
  rcases Option.or_eq_some_iff.mp h with h | ⟨-, h⟩
  · obtain ⟨d, -, h⟩ := Option.bind_eq_some_iff.mp h
    repeat' split at h
    all_goals cases h
  rcases Option.or_eq_some_iff.mp h with h | ⟨-, h⟩
  · rw [int?_eq] at h
    obtain ⟨d, -, h⟩ := Option.bind_eq_some_iff.mp h
    simp only at h
    repeat' split at h
    all_goals cases h
  rcases Option.or_eq_some_iff.mp h with h | ⟨-, h⟩
  · unfold string? at h
    split at h
    · obtain ⟨raw, -, h⟩ := Option.map_eq_some_iff.mp h
      cases h
    · cases h
  rcases Option.or_eq_some_iff.mp h with h | ⟨-, h⟩
  · cases (word?_token (s := .comma) h).1
  · obtain ⟨-, s, -, h⟩ := exists_of_symbol? h
    cases h

theorem Spelled.token_ne_eof (s : Spelled) : s.token ≠ .eof := by
  intro h
  have hread := s.reads
  rw [h] at hread
  exact first?_ne_eof hread

/-- The tokens as cuts, with a blank in front of each but the first one. -/
def spaced (g : Text) : List Spelled → List Cut
  | [] => []
  | s :: ss => ⟨g, s.token, s.text⟩ :: spaced [' '] ss

/-- The tokens as they are printed, with a blank between each two of them. -/
def print (ss : List Spelled) : Text := Text.join [' '] (ss.map Spelled.text)

theorem raw_spaced (g : Text) (s : Spelled) (ss : List Spelled) :
    raw (spaced g (s :: ss)) = g ++ print (s :: ss) := by
  induction ss generalizing g s with
  | nil => simp [spaced, print, Text.join]
  | cons t ss ih =>
    rw [spaced, raw_cons, ih]
    simp [print, Text.join]

theorem raw_spaced_nil (ss : List Spelled) : raw (spaced [] ss) = print ss := by
  cases ss with
  | nil => rfl
  | cons s ss => exact raw_spaced [] s ss

theorem map_token_spaced (g : Text) (ss : List Spelled) :
    (spaced g ss).map Cut.token = ss.map Spelled.token := by
  induction ss generalizing g with
  | nil => rfl
  | cons s ss ih => rw [spaced, List.map_cons, List.map_cons, ih]

/-- **What is printed is cut into the same tokens.** -/
theorem reading_spaced {g : Text} (hg : Separates g) (hv : Shuts v) :
    Reading (spaced g ss) v := by
  induction ss generalizing g with
  | nil => exact trivial
  | cons s ss ih =>
    have hnext : Shuts (raw (spaced [' '] ss) ++ v) := by
      cases ss with
      | nil => exact hv
      | cons t ss =>
        rw [raw_spaced]
        exact shuts_cons (.inl rfl) _
    exact ⟨⟨hg, bare_append_of_shuts s.reads hnext, first?_append_of_shuts s.reads hnext⟩,
      ih (.blank rfl .nil)⟩

end Spelled

end Token

/-! ### Modifiers -/

namespace Modifier

/-- The word that a modifier is written as. -/
def word (m : Modifier) : String :=
  (((reserved ++ contextual).find? (·.2 == m)).map Prod.fst).getD ""

/-- The modifier as a token. -/
def spelled (m : Modifier) : Token.Spelled := .word m.word (by cases m <;> decide)

/-- Whether the modifier is an ordinary name elsewhere. -/
def isContextual (m : Modifier) : Bool := contextual.any (·.2 == m)

/-- Whether a name follows some modifiers directly; the flag tells whether one stands behind
the last of them. -/
def nameAhead (last : Bool) (ms : List Modifier) : Bool := (ms.head?.map isContextual).getD last

/-- Behind each modifier that is an ordinary name elsewhere stands another name. -/
def areClear (last : Bool) : List Modifier → Bool
  | [] => true
  | m :: ms => (!m.isContextual || nameAhead last ms) && areClear last ms

end Modifier

namespace Decl

open PixelWrap.Decl.Parser Grammar
open Token (Spelled isWord print)

/-! ### Brackets -/

/-- Each of the two brackets in the tokens has its other half there, if `depth` more closing
ones stand behind them. -/
def matched (opening close : Symbol) : Nat → List Token → Bool
  | depth, [] => depth == 0
  | depth, k :: ks =>
    if k = .symbol opening then matched opening close (depth + 1) ks
    else if k = .symbol close then
      match depth with
      | 0 => false
      | d + 1 => matched opening close d ks
    else matched opening close depth ks

/-- All brackets in the tokens are closed, if `depth` are open in front of them, and a comma
stands only between brackets. -/
def isValue : Nat → List Token → Bool
  | depth, [] => depth == 0
  | depth, k :: ks =>
    if opens k then isValue (depth + 1) ks
    else if closes k then
      match depth with
      | 0 => false
      | d + 1 => isValue d ks
    else (depth != 0 || k != .symbol .comma) && isValue depth ks

section Brackets

variable {opening close : Symbol} {depth : Nat} {ts us : List Lexeme} {t : Lexeme}

theorem closing?_of_matched (hne : opening ≠ close)
    (h : matched opening close depth (kinds ts) = true) (heof : ∀ t ∈ ts, t.token ≠ .eof)
    (ht : t.token = .symbol close) (rest : List Lexeme) :
    closing? opening close depth (ts ++ t :: rest) = some (t.span, rest) := by
  induction ts generalizing depth with
  | nil =>
    obtain rfl : depth = 0 := by simpa [matched] using h
    have hopen : t.token ≠ .symbol opening := by
      rw [ht]
      rintro ⟨⟩
      exact hne rfl
    rw [List.nil_append, closing?, if_neg hopen, if_pos ht]
  | cons w ts ih =>
    have heof' : ∀ t ∈ ts, t.token ≠ .eof := fun t ht => heof t (List.mem_cons_of_mem _ ht)
    rw [kinds_cons, matched.eq_def] at h
    rw [List.cons_append, closing?.eq_def]
    simp only at h ⊢
    split at h
    · next hw => rw [if_pos hw, ih h heof']
    · next hw =>
      rw [if_neg hw]
      split at h
      · next hw' =>
        rw [if_pos hw']
        split at h
        · cases h
        · exact ih h heof'
      · next hw' => rw [if_neg hw', if_neg (heof w (List.mem_cons_self ..)), ih h heof']

/-- Tokens with matching brackets are a group if they stand in brackets. -/
theorem isGroup_of_matched (hne : opening ≠ close) {ks : List Token}
    (h : matched opening close 0 ks = true) (heof : ∀ k ∈ ks, k ≠ .eof) :
    IsGroup opening close (.symbol opening :: (ks ++ [.symbol close])) := by
  refine ⟨rfl, by simp [List.getLast?_cons], fun ts us hts => ?_⟩
  obtain ⟨t, ts, rfl, ht, hts⟩ := kinds_eq_cons hts
  obtain ⟨inner, lasts, rfl, rfl, hlast⟩ := kinds_eq_append hts
  obtain ⟨last, more, rfl, hl, hmore⟩ := kinds_eq_cons hlast
  cases kinds_eq_nil hmore
  have hclose := closing?_of_matched hne h (fun w hw => heof _ (List.mem_map_of_mem hw)) hl us
  rw [List.cons_append, List.append_assoc, List.singleton_append, balanced]
  simp only [ht, if_true, hclose, spanOf_concat]

theorem splitUntil_of_isValue (h : isValue depth (kinds ts) = true)
    (heof : ∀ t ∈ ts, t.token ≠ .eof)
    (ht : t.token = .symbol .comma ∨ t.token = .symbol .rightParen) :
    splitUntil (fun t => t == .symbol .comma || t == .symbol .rightParen) depth (ts ++ t :: us) =
      .ok (ts, t :: us) := by
  induction ts generalizing depth with
  | nil =>
    obtain rfl : depth = 0 := by simpa [isValue] using h
    rw [List.nil_append, splitUntil, if_pos]
    simpa using ht
  | cons w ts ih =>
    have heof' : ∀ t ∈ ts, t.token ≠ .eof := fun t ht => heof t (List.mem_cons_of_mem _ ht)
    have hw := heof w (List.mem_cons_self ..)
    rw [kinds_cons, isValue.eq_def] at h
    rw [List.cons_append, splitUntil.eq_def]
    simp only at h ⊢
    split at h
    · next ho =>
      have hstop : ¬(depth = 0 ∧ (w.token == .symbol .comma ||
          w.token == .symbol .rightParen) = true) := by
        rintro ⟨-, hstop⟩
        simp only [Bool.or_eq_true, beq_iff_eq] at hstop
        rcases hstop with hstop | hstop <;> rw [hstop] at ho <;> cases ho
      rw [if_neg hstop, if_neg hw, if_pos ho, ih h heof']
      rfl
    · next ho =>
      split at h
      · next hc =>
        split at h
        · cases h
        · rw [if_neg (by omega), if_neg hw, if_neg ho, if_pos hc]
          simp only [ih h heof']
          rfl
      · next hc =>
        rw [Bool.and_eq_true] at h
        have hstop : ¬(depth = 0 ∧ (w.token == .symbol .comma ||
            w.token == .symbol .rightParen) = true) := by
          rintro ⟨rfl, hstop⟩
          simp only [Bool.or_eq_true, beq_iff_eq] at hstop
          rcases hstop with hstop | hstop
          · simp [hstop] at h
          · rw [hstop] at hc
            exact hc rfl
        rw [if_neg hstop, if_neg hw, if_neg ho, if_neg hc, ih h.2 heof']
        rfl

end Brackets

/-! ### Parameters -/

/-- A name that is no reserved word. -/
structure Identifier where
  /-- The name. -/
  name : String
  isName : Text.isName name.toList = true
  notReserved : keywords.lookup name = none

/-- The name as a token. -/
def Identifier.spelled (n : Identifier) : Spelled := .word n.name n.isName

@[simp] theorem Identifier.token_spelled (n : Identifier) : n.spelled.token = .name n.name := by
  show Token.ofWord n.name = _
  rw [Token.ofWord, n.notReserved]

/-- What stands between two brackets. -/
structure Enclosure (opening close : Symbol) where
  /-- The tokens. -/
  inner : List Spelled
  isMatched : matched opening close 0 (inner.map Spelled.token) = true

/-- A default value. -/
structure Value where
  /-- The tokens. -/
  inner : List Spelled
  isValue : Decl.isValue 0 (inner.map Spelled.token) = true

/-- A parameter as the grammar describes it. -/
structure ParamForm where
  /-- The words in front of its type. -/
  modifiers : List Modifier
  /-- The names in front of its type that belong to it. -/
  qualifiers : List Identifier
  /-- Whether its type is marked as unsigned. -/
  isUnsigned : Bool
  /-- The name of its type. -/
  base : Identifier
  /-- The arguments of its type. -/
  args : Option (Enclosure .leftAngle .rightAngle)
  /-- Its name. -/
  name : Identifier
  /-- The brackets after its name. -/
  dims : List (Enclosure .leftSquare .rightSquare)
  /-- Its semantic. -/
  semantic : Option Identifier
  /-- Its default value. -/
  value : Option Value
  qualifiers_mem : ∀ q ∈ qualifiers, q.name ∈ typeQualifiers
  base_notMem : base.name ∉ typeQualifiers
  base_notModifier : Modifier.contextual.lookup base.name = none
  semantic_notMem : ∀ n ∈ semantic, n.name ∉ placements

/-- A symbol of one character. -/
def mark (c : Char) (s : Symbol) (h : Token.first? [c] = some (.symbol s, [c])) : Spelled :=
  ⟨.symbol s, [c], h⟩

/-- Tokens between two brackets, with the brackets. -/
def bracketed (opening close : Spelled) (inner : List Spelled) : List Spelled :=
  opening :: (inner ++ [close])

/-- The arguments of a type, with their brackets. -/
def Enclosure.angled (a : Enclosure .leftAngle .rightAngle) : List Spelled :=
  bracketed (mark '<' .leftAngle (by decide)) (mark '>' .rightAngle (by decide)) a.inner

/-- A dimension, with its brackets. -/
def Enclosure.squared (a : Enclosure .leftSquare .rightSquare) : List Spelled :=
  bracketed (mark '[' .leftSquare (by decide)) (mark ']' .rightSquare (by decide)) a.inner

namespace ParamForm

/-- The tokens of its type. -/
def typeTokens (F : ParamForm) : List Spelled :=
  F.qualifiers.map Identifier.spelled ++
    ((if F.isUnsigned then [.word "unsigned" (by decide)] else []) ++
      (F.base.spelled :: F.args.elim [] Enclosure.angled))

/-- The tokens of its semantic. -/
def semanticTokens (F : ParamForm) : List Spelled :=
  F.semantic.elim [] fun n => [mark ':' .colon (by decide), n.spelled]

/-- The tokens of its default value. -/
def valueTokens (F : ParamForm) : List Spelled :=
  F.value.elim [] fun v => mark '=' .equals (by decide) :: v.inner

/-- Its tokens. -/
def tokens (F : ParamForm) : List Spelled :=
  F.modifiers.map Modifier.spelled ++ (F.typeTokens ++ (F.name.spelled ::
    (F.dims.flatMap Enclosure.squared ++ (F.semanticTokens ++ F.valueTokens))))

/-- No modifier that is an ordinary name elsewhere stands in front of a reserved word. -/
def isClear (F : ParamForm) : Bool :=
  Modifier.areClear (!(F.qualifiers.isEmpty && F.isUnsigned)) F.modifiers

end ParamForm

/-! ### Reading modifiers -/

section Modifiers

open Modifier (areClear nameAhead)

variable {ms : List Modifier} {mw r : List Lexeme} {t u : Lexeme}

theorem modifierOf_spelled (m : Modifier) (more : Bool) :
    modifierOf m.spelled.token more = if m.isContextual && !more then none else some m := by
  cases m <;> cases more <;> rfl

theorem isWord_spelled (m : Modifier) : isWord m.spelled.token = true := Token.isWord_ofWord _

theorem isSome_name?_spelled (m : Modifier) :
    m.spelled.token.name?.isSome = m.isContextual := by
  cases m <;> rfl

theorem endsName_of_isWord {k : Token} (h : isWord k = true) : endsName k = false := by
  cases k <;> first | rfl | cases h

/-- A modifier sees a name behind it if the next one is a name. -/
theorem declaresMore_modifiers (hmw : kinds mw = ms.map fun m => m.spelled.token)
    (ht : isWord t.token = true) (hu : endsName u.token = false) :
    declaresMore (mw ++ t :: u :: r) = nameAhead t.token.name?.isSome ms := by
  cases ms with
  | nil =>
    cases kinds_eq_nil hmw
    simp [declaresMore, nameAhead, hu]
  | cons m ms =>
    obtain ⟨w, mw, rfl, hw, hmw⟩ := kinds_eq_cons hmw
    have hnext : (mw ++ t :: u :: r).head?.any (fun u => endsName u.token) = false := by
      cases ms with
      | nil =>
        cases kinds_eq_nil hmw
        exact endsName_of_isWord ht
      | cons n ms =>
        obtain ⟨v, mw, rfl, hv, -⟩ := kinds_eq_cons hmw
        refine endsName_of_isWord (k := v.token) ?_
        rw [hv]
        exact isWord_spelled n
    rw [List.cons_append, declaresMore, hnext, hw, isSome_name?_spelled]
    simp [nameAhead]

/-- **Modifiers are read** if behind each one that is an ordinary name stands another name. -/
theorem many_modifier_of_areClear (hmw : kinds mw = ms.map fun m => m.spelled.token)
    (ht : isWord t.token = true) (hu : endsName u.token = false)
    (hstop : modifierOf t.token (declaresMore (u :: r)) = none)
    (hclear : areClear t.token.name?.isSome ms = true) :
    many modifier (mw ++ t :: u :: r) = .ok (ms, t :: u :: r) := by
  induction ms generalizing mw with
  | nil =>
    cases kinds_eq_nil hmw
    refine many_of_error (e := unexpected (t :: u :: r)) ?_
    rw [List.nil_append, modifier_cons, hstop]
  | cons m ms ih =>
    obtain ⟨w, mw, rfl, hw, hmw⟩ := kinds_eq_cons hmw
    rw [areClear, Bool.and_eq_true] at hclear
    refine many_of_ok ?_ (Nat.lt_succ_self _) (ih hmw hclear.2)
    have hread : (m.isContextual && !nameAhead t.token.name?.isSome ms) = false := by
      have := hclear.1
      revert this
      cases m.isContextual <;> cases nameAhead t.token.name?.isSome ms <;> simp
    rw [List.cons_append, modifier_cons, hw, modifierOf_spelled, declaresMore_modifiers hmw ht hu,
      hread]
    rfl

/-- Otherwise the modifiers end with one that is an ordinary name in front of a reserved
word. -/
theorem many_modifier_of_not_areClear (hmw : kinds mw = ms.map fun m => m.spelled.token)
    (ht : isWord t.token = true) (hu : endsName u.token = false)
    (hclear : areClear t.token.name?.isSome ms = false) :
    ∃ as n w k r', many modifier (mw ++ t :: u :: r) = .ok (as, w :: k :: r') ∧
      w.token = .name n ∧ n ∉ typeQualifiers ∧ isWord k.token = true ∧ k.token.name? = none := by
  induction ms generalizing mw with
  | nil => cases hclear
  | cons m ms ih =>
    obtain ⟨w, mw, rfl, hw, hmw⟩ := kinds_eq_cons hmw
    have hmore := declaresMore_modifiers (r := r) hmw ht hu
    by_cases hread : (m.isContextual && !nameAhead t.token.name?.isSome ms) = true
    · rw [Bool.and_eq_true, Bool.not_eq_true'] at hread
      obtain ⟨n, hn, hq⟩ : ∃ n, w.token = .name n ∧ n ∉ typeQualifiers := by
        have hcontextual := hread.1
        rw [hw]
        revert hcontextual
        cases m <;> first | (intro h; cases h; done) | exact fun _ => ⟨_, rfl, by decide⟩
      obtain ⟨k, r', hk, hword, hname⟩ : ∃ k r', mw ++ t :: u :: r = k :: r' ∧
          isWord k.token = true ∧ k.token.name? = none := by
        have hfalse := hread.2
        cases ms with
        | nil =>
          cases kinds_eq_nil hmw
          exact ⟨t, u :: r, rfl, ht, by simpa [nameAhead] using hfalse⟩
        | cons m' ms =>
          obtain ⟨v, mw, rfl, hv, -⟩ := kinds_eq_cons hmw
          refine ⟨v, mw ++ t :: u :: r, rfl, by rw [hv]; exact isWord_spelled m', ?_⟩
          rw [hv]
          have hnone : m'.isContextual = false := by simpa [nameAhead] using hfalse
          rw [← isSome_name?_spelled] at hnone
          simpa using hnone
      refine ⟨[], n, w, k, r', ?_, hn, hq, hword, hname⟩
      rw [List.cons_append, hk]
      refine many_of_error (e := unexpected (w :: k :: r')) ?_
      rw [modifier_cons, ← hk, hmore, hw, modifierOf_spelled, hread.1, hread.2]
      rfl
    · have htail : areClear t.token.name?.isSome ms = false := by
        rw [areClear] at hclear
        revert hread hclear
        cases m.isContextual <;> cases nameAhead t.token.name?.isSome ms <;> simp
      obtain ⟨as, n, w', k, r', hmany, hrest⟩ := ih hmw htail
      refine ⟨m :: as, n, w', k, r', many_of_ok ?_ (Nat.lt_succ_self _) hmany, hrest⟩
      rw [List.cons_append, modifier_cons, hw, modifierOf_spelled, hmore,
        Bool.eq_false_iff.mpr hread]
      rfl

end Modifiers

/-! ### Reading parameters -/

/-- The kinds of tokens that are printed. -/
def spelledKinds (ss : List Spelled) : List Token := ss.map Spelled.token

section Parts

variable {ss : List Spelled} {ks : List Token}

theorem spelledKinds_bracketed {opening close : Symbol} {a b : Spelled} (hne : opening ≠ close)
    (ha : a.token = .symbol opening) (hb : b.token = .symbol close)
    (h : matched opening close 0 (ss.map Spelled.token) = true) :
    IsGroup opening close (spelledKinds (bracketed a b ss)) := by
  have hgroup := isGroup_of_matched hne h (by
    intro k hk
    obtain ⟨s, -, rfl⟩ := List.mem_map.mp hk
    exact s.token_ne_eof)
  rw [← ha, ← hb] at hgroup
  simpa [spelledKinds, bracketed] using hgroup

theorem Enclosure.isGroup_angled (a : Enclosure .leftAngle .rightAngle) :
    IsGroup .leftAngle .rightAngle (spelledKinds a.angled) :=
  spelledKinds_bracketed (by decide) rfl rfl a.isMatched

theorem Enclosure.isGroup_squared (a : Enclosure .leftSquare .rightSquare) :
    IsGroup .leftSquare .rightSquare (spelledKinds a.squared) :=
  spelledKinds_bracketed (by decide) rfl rfl a.isMatched

end Parts

namespace ParamForm

variable (F : ParamForm) {p : Preprocessed} {ts us : List Lexeme} {u : Lexeme}

theorem spelledKinds_typeTokens : spelledKinds F.typeTokens =
    F.qualifiers.map (fun q => .name q.name) ++
      ((if F.isUnsigned then [.keyword .unsigned] else []) ++
        (.name F.base.name :: spelledKinds (F.args.elim [] Enclosure.angled))) := by
  have hunsigned : (Spelled.word "unsigned" (by decide)).token = .keyword .unsigned := rfl
  have hcomp : Spelled.token ∘ Identifier.spelled = fun q => .name q.name :=
    funext Identifier.token_spelled
  cases hu : F.isUnsigned <;> simp [spelledKinds, typeTokens, hu, hunsigned, hcomp]

theorem isType : IsType (spelledKinds F.typeTokens) := by
  rw [spelledKinds_typeTokens]
  refine .mk ?_ ?_ ?_
  · intro k hk
    obtain ⟨q, hq, rfl⟩ := List.mem_map.mp hk
    simpa [isQualifier, Token.name?] using F.qualifiers_mem q hq
  · cases F.isUnsigned with
    | true => exact .inr rfl
    | false => exact .inl ⟨rfl, by simpa [isQualifier, Token.name?] using F.base_notMem⟩
  · cases F.args with
    | none => exact .inl rfl
    | some a => exact .inr a.isGroup_angled

/-- The dimensions are groups, as many as there are. -/
theorem many_dims (us : List Lexeme) {dw : List Lexeme}
    {ds : List (Enclosure .leftSquare .rightSquare)}
    (hdw : kinds dw = spelledKinds (ds.flatMap Enclosure.squared))
    (hus : ∀ t ∈ us.head?, t.token ≠ .symbol .leftSquare) :
    ∃ spans, many (balanced .leftSquare .rightSquare) (dw ++ us) = .ok (spans, us) ∧
      spans.length = ds.length := by
  induction ds generalizing dw with
  | nil =>
    cases kinds_eq_nil hdw
    exact ⟨[], many_of_error (balanced_of_ne hus), rfl⟩
  | cons d ds ih =>
    have hsplit : kinds dw =
        spelledKinds d.squared ++ spelledKinds (ds.flatMap Enclosure.squared) := by
      rw [hdw, List.flatMap_cons]
      exact List.map_append
    obtain ⟨ws, vs, rfl, hws, hvs⟩ := kinds_eq_append hsplit
    obtain ⟨spans, hspans, hlen⟩ := ih hvs
    have hread := d.isGroup_squared.reads ws (vs ++ us) hws
    rw [← List.append_assoc] at hread
    exact ⟨_, many_of_ok hread (shrinks_balanced _ _ _ _ _ hread).2 hspans, by simp [hlen]⟩

/-- The semantic is read. -/
theorem semantic_of_kinds (us : List Lexeme) {sw : List Lexeme}
    (hsw : kinds sw = spelledKinds F.semanticTokens)
    (hus : ∀ t ∈ us.head?, t.token ≠ .symbol .colon) :
    Grammar.semantic (sw ++ us) = .ok (F.semantic.map Identifier.name, us) := by
  unfold semanticTokens at hsw
  cases hs : F.semantic with
  | none =>
    rw [hs] at hsw
    cases kinds_eq_nil hsw
    have hend : binding us = .error (unexpected us) := bind_of_error (symbol_of_ne hus)
    rw [Grammar.semantic, List.nil_append, bind_of_ok (many_of_error hend)]
    rfl
  | some n =>
    rw [hs] at hsw
    obtain ⟨c, sw, rfl, hc, hsw⟩ := kinds_eq_cons hsw
    obtain ⟨s, sw, rfl, hs', hsw⟩ := kinds_eq_cons hsw
    cases kinds_eq_nil hsw
    exact semantic_cons hc (hs'.trans n.token_spelled) (F.semantic_notMem n hs) hus

/-- The default value is read. -/
theorem value_of_kinds (us : List Lexeme) {vw : List Lexeme}
    (hvw : kinds vw = spelledKinds F.valueTokens)
    (hu : u.token = .symbol .comma ∨ u.token = .symbol .rightParen) :
    ∃ v, Parser.optional defaultValue (vw ++ u :: us) = .ok (v, u :: us) ∧
      v.isSome = F.value.isSome := by
  unfold valueTokens at hvw
  cases hv : F.value with
  | none =>
    rw [hv] at hvw
    cases kinds_eq_nil hvw
    refine ⟨none, optional_of_error (bind_of_error (symbol_of_ne ?_)), rfl⟩
    rintro t ⟨⟩
    rcases hu with hu | hu <;> rw [hu] <;> nofun
  | some v =>
    rw [hv] at hvw
    obtain ⟨e, vw, rfl, he, hvw⟩ := kinds_eq_cons hvw
    have hvalue : isValue 0 (kinds vw) = true := by
      rw [hvw]
      exact v.isValue
    have heof : ∀ t ∈ vw, t.token ≠ .eof := by
      intro t ht
      have hmem : t.token ∈ kinds vw := List.mem_map_of_mem ht
      rw [hvw] at hmem
      obtain ⟨s, -, hs⟩ := List.mem_map.mp hmem
      rw [← hs]
      exact s.token_ne_eof
    refine ⟨some vw, optional_of_ok ?_, rfl⟩
    rw [defaultValue, List.cons_append, bind_of_ok (symbol_of_eq he), scanUntil,
      splitUntil_of_isValue hvalue heof hu]

/-- The type starts with a word that is no modifier, and then something follows that does
not end the name in front of it. -/
theorem exists_typeTokens (n : String) (ks : List Token) :
    ∃ k k' ks', spelledKinds F.typeTokens ++ .name n :: ks = k :: k' :: ks' ∧ isWord k = true ∧
      endsName k' = false ∧ (∀ more, modifierOf k more = none) ∧
      k.name?.isSome = !(F.qualifiers.isEmpty && F.isUnsigned) := by
  have hnone : ∀ {m : String}, Modifier.contextual.lookup m = none →
      ∀ more, modifierOf (.name m) more = none := by
    intro m hm more
    rw [modifierOf, hm]
    split <;> rfl
  have hqualifier : ∀ q ∈ typeQualifiers, Modifier.contextual.lookup q = none := by decide
  rw [spelledKinds_typeTokens]
  cases hq : F.qualifiers with
  | cons q qs =>
    have hq' := hnone (hqualifier q.name (F.qualifiers_mem q (by simp [hq])))
    match qs, F.isUnsigned with
    | _ :: _, _ => exact ⟨_, _, _, rfl, rfl, rfl, hq', rfl⟩
    | [], true => exact ⟨_, _, _, rfl, rfl, rfl, hq', rfl⟩
    | [], false => exact ⟨_, _, _, rfl, rfl, rfl, hq', rfl⟩
  | nil =>
    have hbase := hnone F.base_notModifier
    match F.isUnsigned, F.args with
    | true, _ => exact ⟨_, _, _, rfl, rfl, rfl, fun _ => rfl, rfl⟩
    | false, some _ => exact ⟨_, _, _, rfl, rfl, rfl, hbase, rfl⟩
    | false, none => exact ⟨_, _, _, rfl, rfl, rfl, hbase, rfl⟩

/-- The tokens of a parameter in front of a comma or a parenthesis. -/
structure Stands (ts mw tw : List Lexeme) (t : Lexeme) (dw sw vw : List Lexeme) : Prop where
  split : ts = mw ++ (tw ++ (t :: (dw ++ (sw ++ vw))))
  modifiers : kinds mw = F.modifiers.map fun m => m.spelled.token
  type : kinds tw = spelledKinds F.typeTokens
  name : t.token = .name F.name.name
  dims : kinds dw = spelledKinds (F.dims.flatMap Enclosure.squared)
  semantic : kinds sw = spelledKinds F.semanticTokens
  value : kinds vw = spelledKinds F.valueTokens

variable {F} {mw tw dw sw vw : List Lexeme} {t : Lexeme}

/-- What follows the semantic is a default value or the end of the parameter. -/
theorem Stands.value_head (h : F.Stands ts mw tw t dw sw vw) (us : List Lexeme)
    (hu : u.token = .symbol .comma ∨ u.token = .symbol .rightParen) :
    ∀ w ∈ (vw ++ u :: us).head?, w.token = .symbol .equals ∨ w.token = .symbol .comma ∨
      w.token = .symbol .rightParen := by
  have hvw := h.value
  unfold valueTokens at hvw
  cases hv : F.value with
  | none =>
    rw [hv] at hvw
    cases kinds_eq_nil hvw
    rintro w ⟨⟩
    exact .inr hu
  | some v =>
    rw [hv] at hvw
    obtain ⟨e, vw, rfl, he, -⟩ := kinds_eq_cons hvw
    rintro w ⟨⟩
    exact .inl he

/-- What follows the dimensions is a semantic or what follows that. -/
theorem Stands.semantic_head (h : F.Stands ts mw tw t dw sw vw) {ws : List Lexeme} :
    ∀ w ∈ (sw ++ ws).head?, w.token = .symbol .colon ∨ w ∈ ws.head? := by
  have hsw := h.semantic
  unfold semanticTokens at hsw
  cases hs : F.semantic with
  | none =>
    rw [hs] at hsw
    cases kinds_eq_nil hsw
    exact fun w hw => .inr hw
  | some n =>
    rw [hs] at hsw
    obtain ⟨c, sw, rfl, hc, -⟩ := kinds_eq_cons hsw
    rintro w ⟨⟩
    exact .inl hc

/-- The first two tokens behind the modifiers. -/
theorem Stands.exists_type (h : F.Stands ts mw tw t dw sw vw) (ws : List Lexeme) :
    ∃ a b r, tw ++ (t :: ws) = a :: b :: r ∧ isWord a.token = true ∧ endsName b.token = false ∧
      (∀ more, modifierOf a.token more = none) ∧
      a.token.name?.isSome = !(F.qualifiers.isEmpty && F.isUnsigned) := by
  obtain ⟨k, k', ks, hks, hword, hends, hnone, hname⟩ := F.exists_typeTokens F.name.name (kinds ws)
  have hkinds : kinds (tw ++ (t :: ws)) = k :: k' :: ks := by
    rw [kinds_append, kinds_cons, h.type, h.name, hks]
  obtain ⟨a, r, hr, rfl, htail⟩ := kinds_eq_cons hkinds
  obtain ⟨b, r, rfl, rfl, -⟩ := kinds_eq_cons htail
  exact ⟨a, b, r, hr, hword, hends, hnone, hname⟩

/-- **The tokens of a parameter are read as that parameter.** -/
theorem Stands.param_of_isClear (h : F.Stands ts mw tw t dw sw vw) (hF : F.isClear = true)
    (hu : u.token = .symbol .comma ∨ u.token = .symbol .rightParen) :
    ∃ P, param p (ts ++ u :: us) = .ok (P, u :: us) ∧ P.modifiers = F.modifiers ∧
      P.type = ⟨sourceOf p tw, false⟩ ∧ P.name = F.name.name ∧ P.dims.length = F.dims.length ∧
      P.semantic = F.semantic.map Identifier.name ∧
      P.defaultValue.isSome = F.value.isSome := by
  have hvalueHead := h.value_head us hu
  have hsplit : ts ++ u :: us = mw ++ (tw ++ (t :: (dw ++ (sw ++ (vw ++ u :: us))))) := by
    rw [h.split]
    simp
  have hmods : many modifier (mw ++ (tw ++ (t :: (dw ++ (sw ++ (vw ++ u :: us)))))) =
      .ok (F.modifiers, tw ++ (t :: (dw ++ (sw ++ (vw ++ u :: us))))) := by
    obtain ⟨a, b, r, hr, hword, hends, hnone, hname⟩ :=
      h.exists_type (dw ++ (sw ++ (vw ++ u :: us)))
    rw [hr]
    refine many_modifier_of_areClear h.modifiers hword hends (hnone _) ?_
    rw [hname]
    exact hF
  have hisType : IsType (kinds tw) := h.type ▸ F.isType
  have htype : typeName p (tw ++ (t :: (dw ++ (sw ++ (vw ++ u :: us))))) =
      .ok (⟨sourceOf p tw, false⟩, t :: (dw ++ (sw ++ (vw ++ u :: us)))) := by
    refine typeName_of_isType p [] hisType (hisType.optional_const _) ?_
    rintro w ⟨⟩
    rw [h.name]
    nofun
  obtain ⟨spans, hdims, hlen⟩ := many_dims (sw ++ (vw ++ u :: us)) h.dims (by
    intro w hw
    rcases h.semantic_head w hw with hw | hw
    · rw [hw]
      nofun
    · rcases hvalueHead w hw with hw | hw | hw <;> rw [hw] <;> nofun)
  have hsemantic := F.semantic_of_kinds (vw ++ u :: us) h.semantic (by
    intro w hw
    rcases hvalueHead w hw with hw | hw | hw <;> rw [hw] <;> nofun)
  obtain ⟨v, hvalue, hsome⟩ := F.value_of_kinds us h.value hu
  rw [hsplit]
  refine ⟨_, bind_eq_ok.mpr ⟨_, _, rfl, bind_eq_ok.mpr ⟨_, _, hmods, bind_eq_ok.mpr ⟨_, _, htype,
    bind_eq_ok.mpr ⟨_, _, name_cons h.name _, bind_eq_ok.mpr ⟨_, _, hdims,
    bind_eq_ok.mpr ⟨_, _, rfl, bind_eq_ok.mpr ⟨_, _, hsemantic,
    bind_eq_ok.mpr ⟨_, _, hvalue, rfl⟩⟩⟩⟩⟩⟩⟩⟩,
    rfl, rfl, rfl, ?_, rfl, ?_⟩
  · rw [List.length_map, hlen]
  · rw [Option.isSome_map, hsome]

/-- A modifier in front of a reserved word is taken for the type, and there is no name. -/
theorem Stands.param_of_not_isClear (h : F.Stands ts mw tw t dw sw vw) (hF : F.isClear = false)
    (us : List Lexeme) : ∃ e, param p (ts ++ us) = .error e := by
  have hsplit : ts ++ us = mw ++ (tw ++ (t :: (dw ++ (sw ++ vw) ++ us))) := by
    rw [h.split]
    simp
  obtain ⟨a, b, r, hr, hword, hends, -, hname⟩ := h.exists_type (dw ++ (sw ++ vw) ++ us)
  rw [hsplit, hr]
  unfold isClear at hF
  rw [← hname] at hF
  obtain ⟨as, n, w, k, r', hmany, hw, hq, hk, hnone⟩ :=
    many_modifier_of_not_areClear (r := r) h.modifiers hword hends hF
  have hisType : IsType (kinds [w]) := by
    rw [kinds_cons, hw, kinds_nil]
    refine @IsType.mk [] [] [] _ nofun (.inl ⟨rfl, ?_⟩) (.inl rfl)
    simpa [isQualifier, Token.name?] using hq
  have htype : typeName p (w :: k :: r') = .ok (⟨sourceOf p [w], false⟩, k :: r') := by
    rw [← List.singleton_append]
    refine typeName_of_isType p [] hisType (hisType.optional_const _) ?_
    rintro v ⟨⟩ hv
    rw [hv] at hk
    cases hk
  have hend : Parser.name (k :: r') = .error (unexpected (k :: r')) := by
    refine accept_of_none ?_
    rintro v ⟨⟩
    exact hnone
  refine ⟨unexpected (k :: r'), ?_⟩
  rw [param]
  refine (bind_of_ok rfl).trans ?_
  rw [bind_of_ok hmany, bind_of_ok htype, bind_of_error hend]

/-! ### Printing parameters -/

section Print

open Token (Cut Reading lexemes raw spaced tokensFrom)

theorem spaced_append (g : Text) (as bs : List Spelled) :
    spaced g (as ++ bs) = spaced g as ++ spaced (if as.isEmpty then g else [' ']) bs := by
  induction as generalizing g with
  | nil => rfl
  | cons a as ih =>
    rw [List.cons_append, spaced, spaced, ih]
    cases as <;> rfl

theorem kinds_lexemes_spaced (o : Nat) (g : Text) (ss : List Spelled) :
    kinds (lexemes o (spaced g ss)) = spelledKinds ss := by
  rw [kinds, Token.map_token_lexemes, Token.map_token_spaced]
  rfl

/-- The span of printed tokens is that of the text that they are printed as. -/
theorem spanOf_spaced (o : Nat) (g : Text) {ss : List Spelled} (h : ss ≠ []) :
    spanOf (lexemes o (spaced g ss)) =
      ⟨o + Text.size g, o + Text.size g + Text.size (print ss)⟩ := by
  obtain ⟨s, ss, rfl⟩ := List.exists_cons_of_ne_nil h
  have hraw := Token.raw_spaced g s ss
  rw [spaced, Token.raw_cons] at hraw
  rw [spaced, Token.spanOf_lexemes, Token.written_cons, List.append_cancel_left hraw]

/-- The tokens of the parts of a parameter as they are printed. -/
theorem exists_stands (F : ParamForm) :
    ∃ mw tw t dw sw vw, F.Stands (lexemes 0 (spaced [] F.tokens)) mw tw t dw sw vw ∧
      tw ≠ [] ∧ ∃ before after, print F.tokens = before ++ (print F.typeTokens ++ after) ∧
        spanOf tw = ⟨Text.size before, Text.size before + Text.size (print F.typeTokens)⟩ := by
  have hne : F.typeTokens ≠ [] := fun hnil => F.isType.ne_nil (by rw [hnil]; rfl)
  obtain ⟨g₁, g₂, g₃, g₄, hcuts⟩ : ∃ g₁ g₂ g₃ g₄, spaced [] F.tokens =
      spaced [] (F.modifiers.map Modifier.spelled) ++ (spaced g₁ F.typeTokens ++
        (⟨g₂, F.name.spelled.token, F.name.spelled.text⟩ ::
          (spaced [' '] (F.dims.flatMap Enclosure.squared) ++
            (spaced g₃ F.semanticTokens ++ spaced g₄ F.valueTokens)))) :=
    ⟨_, _, _, _, by rw [tokens, spaced_append, spaced_append, spaced, spaced_append,
      spaced_append]⟩
  obtain ⟨b, bs, hbs⟩ := List.exists_cons_of_ne_nil hne
  have hprint : ∃ after, print F.tokens =
      raw (spaced [] (F.modifiers.map Modifier.spelled)) ++ g₁ ++
        (print F.typeTokens ++ after) := by
    rw [← Token.raw_spaced_nil, hcuts, Token.raw_append, Token.raw_append, hbs, Token.raw_spaced,
      List.append_assoc]
    exact ⟨_, (List.append_assoc ..).symm⟩
  obtain ⟨after, hprint⟩ := hprint
  refine ⟨lexemes 0 (spaced [] (F.modifiers.map Modifier.spelled)),
    lexemes (0 + Text.size (raw (spaced [] (F.modifiers.map Modifier.spelled))))
      (spaced g₁ F.typeTokens), _, _, _, _,
    ⟨by rw [hcuts, Token.lexemes_append, Token.lexemes_append, lexemes, Token.lexemes_append,
      Token.lexemes_append], ?_, ?_, F.name.token_spelled, ?_, ?_, ?_⟩, ?_, ?_⟩
  · rw [kinds_lexemes_spaced, spelledKinds, List.map_map]
    rfl
  · exact kinds_lexemes_spaced ..
  · exact kinds_lexemes_spaced ..
  · exact kinds_lexemes_spaced ..
  · exact kinds_lexemes_spaced ..
  · rw [hbs]
    exact List.cons_ne_nil _ _
  · refine ⟨_, after, hprint, ?_⟩
    rw [spanOf_spaced _ _ hne, Text.size_append, Nat.zero_add]

/-- **What is printed in front of a comma or a parenthesis is cut into the same tokens.** -/
theorem lex_print {p : Preprocessed} {ss : List Spelled} {c : Char} {s : Symbol} {tail : Text}
    {after : List Lexeme} (hc : (c, s) ∈ [(',', Symbol.comma), (')', .rightParen)])
    (hcode : p.code = print ss ++ c :: tail)
    (htail : tokensFrom (Text.size (print ss) + 1) tail = .ok after) :
    ∃ u, u.token = .symbol s ∧ Token.lex p =
      .ok (lexemes 0 (spaced [] ss) ++ u :: (after ++ [Token.endMark p.code])) := by
  have hc' : (c = ',' ∧ s = .comma) ∨ (c = ')' ∧ s = .rightParen) := by simpa using hc
  have hshuts : Token.Shuts (c :: tail) := by
    rcases hc' with ⟨rfl, -⟩ | ⟨rfl, -⟩
    · exact Token.shuts_cons (.inr (.inl rfl)) tail
    · exact Token.shuts_cons (.inr (.inr rfl)) tail
  have hread : Reading (spaced [] ss) (c :: tail) := Token.reading_spaced .nil hshuts
  have hclose : Cut.Reads ⟨[], .symbol s, [c]⟩ tail := by
    refine ⟨.nil, fun u => ?_, ?_⟩
    · rcases hc' with ⟨rfl, -⟩ | ⟨rfl, -⟩ <;> exact ⟨nofun, nofun⟩
    · rcases hc' with ⟨rfl, rfl⟩ | ⟨rfl, rfl⟩
      · exact Token.first?_of_hard rfl (by decide) (by decide) tail
      · exact Token.first?_of_hard rfl (by decide) (by decide) tail
  have hsize : Text.size [c] = 1 := by
    rcases hc' with ⟨rfl, -⟩ | ⟨rfl, -⟩ <;> rfl
  have htokens := hread.tokensFrom_append 0
  have hrest := hclose.tokensFrom_eq (Text.size (print ss))
  rw [Token.raw_spaced_nil, Nat.zero_add] at htokens
  simp only [List.nil_append, List.singleton_append, Text.size_nil, Nat.add_zero, hsize,
    htail] at hrest
  refine ⟨⟨.symbol s, ⟨Text.size (print ss), Text.size (print ss) + 1⟩⟩, rfl, ?_⟩
  rw [Token.lex, Token.tokens, hcode, htokens, hrest]
  simp [Except.map, Token.endMark]

/-- **A printed parameter is read again exactly if no modifier that is an ordinary name
elsewhere stands in front of a reserved word.**  All of its tokens are taken up then, and
none of those behind it. -/
theorem param_print (F : ParamForm) (p : Preprocessed) {c : Char} {s : Symbol} {tail : Text}
    {after : List Lexeme} (hc : (c, s) ∈ [(',', Symbol.comma), (')', .rightParen)])
    (hcode : p.code = print F.tokens ++ c :: tail)
    (htail : tokensFrom (Text.size (print F.tokens) + 1) tail = .ok after) :
    ∃ ts rest, Token.lex p = .ok (ts ++ rest) ∧ kinds ts = F.tokens.map Spelled.token ∧
      kinds rest = .symbol s :: (kinds after ++ [.eof]) ∧
      if F.isClear then
        ∃ P span, param p (ts ++ rest) = .ok (P, rest) ∧ P.modifiers = F.modifiers ∧
          p.text span = print F.typeTokens ∧ P.type = ⟨p.sourceText span, false⟩ ∧
          P.name = F.name.name ∧ P.dims.length = F.dims.length ∧
          P.semantic = F.semantic.map Identifier.name ∧
          P.defaultValue.isSome = F.value.isSome
      else ∃ e, param p (ts ++ rest) = .error e := by
  obtain ⟨u, hu, hlex⟩ := lex_print hc hcode htail
  obtain ⟨mw, tw, t, dw, sw, vw, hstands, hne, before, behind, hprint, hspan⟩ := F.exists_stands
  refine ⟨_, _, hlex, kinds_lexemes_spaced .., ?_, ?_⟩
  · rw [kinds_cons, kinds_append, hu]
    rfl
  · split
    · next hF =>
      have hu' : u.token = .symbol .comma ∨ u.token = .symbol .rightParen := by
        have hc' : (c = ',' ∧ s = .comma) ∨ (c = ')' ∧ s = .rightParen) := by simpa using hc
        rcases hc' with ⟨-, rfl⟩ | ⟨-, rfl⟩
        · exact .inl hu
        · exact .inr hu
      obtain ⟨P, hP, hmods, htype, hrest⟩ := hstands.param_of_isClear (p := p) hF hu'
      refine ⟨P, spanOf tw, hP, hmods, ?_, ?_, hrest⟩
      · rw [Preprocessed.text, hspan, hcode, hprint, List.append_assoc, List.append_assoc,
          Text.slice?_append]
        rfl
      · rw [htype, sourceOf_eq p hne]
    · next hF => exact hstands.param_of_not_isClear (by simpa using hF) _

/-- The parameter `const linear row_major vector<float, 4> x[2] : COLOR = f(1, 2)`. -/
def vectorForm : ParamForm where
  modifiers := [.const, .linear]
  qualifiers := [⟨"row_major", by decide, by decide⟩]
  isUnsigned := false
  base := ⟨"vector", by decide, by decide⟩
  args := some ⟨[.word "float" (by decide), mark ',' .comma (by decide),
    ⟨.int 4, ['4'], by decide⟩], by decide⟩
  name := ⟨"x", by decide, by decide⟩
  dims := [⟨[⟨.int 2, ['2'], by decide⟩], by decide⟩]
  semantic := some ⟨"COLOR", by decide, by decide⟩
  value := some ⟨[.word "f" (by decide), mark '(' .leftParen (by decide),
    ⟨.int 1, ['1'], by decide⟩, mark ',' .comma (by decide), ⟨.int 2, ['2'], by decide⟩,
    mark ')' .rightParen (by decide)], by decide⟩
  qualifiers_mem := by decide
  base_notMem := by decide
  base_notModifier := by decide
  semantic_notMem := by decide

/-- The text of a parameter in front of a parenthesis, without a file that it comes from. -/
def closed (F : ParamForm) : Preprocessed := ⟨⟨print F.tokens ++ [')'], []⟩, []⟩

/-- A printed parameter with all its parts is read again. -/
theorem param_print_vector :
    (closed vectorForm).code =
      "const linear row_major vector < float , 4 > x [ 2 ] : COLOR = f ( 1 , 2 ))".toList ∧
    ∃ ts rest P span, Token.lex (closed vectorForm) = .ok (ts ++ rest) ∧
      param (closed vectorForm) (ts ++ rest) = .ok (P, rest) ∧
      kinds rest = [.symbol .rightParen, .eof] ∧ P.modifiers = [.const, .linear] ∧
      P.type = ⟨(closed vectorForm).sourceText span, false⟩ ∧
      (closed vectorForm).text span = "row_major vector < float , 4 >".toList ∧ P.name = "x" ∧
      P.dims.length = 1 ∧ P.semantic = some "COLOR" ∧ P.defaultValue.isSome = true := by
  have htail : tokensFrom (Text.size (print vectorForm.tokens) + 1) [] = .ok [] :=
    Token.tokensFrom_of_separatesLast _ Token.Separates.nil.last
  obtain ⟨ts, rest, hlex, -, hrest, h⟩ :=
    param_print vectorForm (closed vectorForm) (c := ')') (s := .rightParen) (by simp) rfl htail
  rw [if_pos (by decide)] at h
  obtain ⟨P, span, hP, hmods, htext, htype, hname, hdims, hsemantic, hvalue⟩ := h
  exact ⟨by decide, ts, rest, P, span, hlex, hP, hrest, hmods, htype,
    htext.trans (by decide), hname, hdims, hsemantic, hvalue⟩

/-- The parameter `linear in float x`. -/
def linearInput : ParamForm where
  modifiers := [.linear, .input]
  qualifiers := []
  isUnsigned := false
  base := ⟨"float", by decide, by decide⟩
  args := none
  name := ⟨"x", by decide, by decide⟩
  dims := []
  semantic := none
  value := none
  qualifiers_mem := nofun
  base_notMem := by decide
  base_notModifier := by decide
  semantic_notMem := nofun

/-- A parameter that cannot be read as it is printed. -/
theorem exists_param_error :
    (closed linearInput).code = "linear in float x)".toList ∧
      ∃ ts e, Token.lex (closed linearInput) = .ok ts ∧
        param (closed linearInput) ts = .error e := by
  have htail : tokensFrom (Text.size (print linearInput.tokens) + 1) [] = .ok [] :=
    Token.tokensFrom_of_separatesLast _ Token.Separates.nil.last
  obtain ⟨u, -, hlex⟩ :=
    lex_print (p := closed linearInput) (c := ')') (s := .rightParen) (by simp) rfl htail
  obtain ⟨mw, tw, t, dw, sw, vw, hstands, -⟩ := linearInput.exists_stands
  obtain ⟨e, he⟩ := hstands.param_of_not_isClear (p := closed linearInput) (by decide)
    (u :: ([] ++ [Token.endMark (closed linearInput).code]))
  exact ⟨by decide, _, e, hlex, he⟩

end Print

end ParamForm

end Decl

end PixelWrap
