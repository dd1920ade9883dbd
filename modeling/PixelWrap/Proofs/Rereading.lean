import PixelWrap.Proofs.Lexemes
import PixelWrap.Proofs.Outline

/-!
# Parts of a function in another place

What a parser reads depends on the tokens and not on where they stand.  The type, the
parameters and the body of a function are each read from tokens of their own, and few
tokens behind these are looked at.  So each of them is read again from tokens of the same
kinds that stand elsewhere.

## Main definitions

* `Decl.kinds`: tokens without their places.
* `Decl.IsGroup`, `Decl.IsType`, `Decl.IsParam`: tokens of these kinds are read as a group
  in brackets, as a type and as a parameter, wherever they stand.
* `Decl.Parts`: the tokens that the parts of a function are read from.

## Main results

* `Decl.exists_of_typeName`, `Decl.exists_of_param`: what is read as a type or a parameter
  is of such kinds.
* `Decl.exists_parts`: so are the parts of a function.
* `Decl.declaration_of_parts`: a function is read again from its parts.
-/

namespace PixelWrap.Decl

open PixelWrap.Decl.Parser Grammar
open Token (isWord isStop)

/-! ### Kinds of tokens -/

/-- The tokens without their places. -/
def kinds (ts : List Lexeme) : List Token := ts.map Lexeme.token

/-- The span from the first of the tokens to the last. -/
def spanOf (ts : List Lexeme) : Span :=
  match ts.head?, ts.getLast? with
  | some first, some last => first.span.join last.span
  | _, _ => ⟨0, 0⟩

section Kinds

variable {ts us : List Lexeme} {t : Lexeme} {ks : List Token} {k : Token}

@[simp] theorem kinds_nil : kinds [] = [] := rfl

@[simp] theorem kinds_cons : kinds (t :: ts) = t.token :: kinds ts := rfl

@[simp] theorem kinds_append : kinds (ts ++ us) = kinds ts ++ kinds us := List.map_append

theorem kinds_eq_cons (h : kinds ts = k :: ks) :
    ∃ t us, ts = t :: us ∧ t.token = k ∧ kinds us = ks := by
  obtain ⟨t, us, rfl, ht, hu⟩ := List.map_eq_cons_iff.mp h
  exact ⟨t, us, rfl, ht, hu⟩

theorem kinds_eq_append {ls : List Token} (h : kinds ts = ks ++ ls) :
    ∃ us vs, ts = us ++ vs ∧ kinds us = ks ∧ kinds vs = ls := List.map_eq_append_iff.mp h

theorem kinds_eq_nil (h : kinds ts = []) : ts = [] := List.map_eq_nil_iff.mp h

theorem sourceOf_eq (p : Preprocessed) (h : ts ≠ []) :
    sourceOf p ts = p.sourceText (spanOf ts) := by
  unfold sourceOf spanOf
  rw [List.head?_eq_some_head h, List.getLast?_eq_some_getLast h]

@[simp] theorem spanOf_concat (t u : Lexeme) (ts : List Lexeme) :
    spanOf (t :: (ts ++ [u])) = t.span.join u.span := by
  have hlast : (t :: (ts ++ [u])).getLast? = some u := by
    rw [← List.cons_append, List.getLast?_concat]
  rw [spanOf, hlast]
  rfl

end Kinds

/-! ### Combined parsers -/

section Combined

variable {α β : Type} {q : Parser α} {ts rest : List Lexeme}

theorem bind_of_ok {f : α → Parser β} {a : α} {s : List Lexeme} (h : q ts = .ok (a, s)) :
    (q >>= f) ts = f a s := by
  show (q ts >>= fun x => f x.1 x.2) = f a s
  rw [h]
  rfl

theorem bind_of_error {f : α → Parser β} {e : Fault} (h : q ts = .error e) :
    (q >>= f) ts = .error e := by
  show (q ts >>= fun x => f x.1 x.2) = .error e
  rw [h]
  rfl

theorem optional_of_ok {a : α} (h : q ts = .ok (a, rest)) :
    Parser.optional q ts = .ok (some a, rest) := by
  rw [Parser.optional, h]

theorem optional_of_error {e : Fault} (h : q ts = .error e) :
    Parser.optional q ts = .ok (none, ts) := by
  rw [Parser.optional, h]

theorem many_of_error {e : Fault} (h : q ts = .error e) : many q ts = .ok ([], ts) := by
  rw [many, h]

theorem many_of_ok {a : α} {r : List Lexeme} {as : List α} (h : q ts = .ok (a, r))
    (hlen : r.length < ts.length) (hm : many q r = .ok (as, rest)) :
    many q ts = .ok (a :: as, rest) := by
  rw [many, h]
  simp only [if_pos hlen, hm]
  rfl

/-- Either nothing more is read, or one more. -/
theorem cases_of_many {as : List α} (h : many q ts = .ok (as, rest)) :
    (as = [] ∧ rest = ts ∧ ∀ a r, q ts = .ok (a, r) → ts.length ≤ r.length) ∨
      ∃ a r as', q ts = .ok (a, r) ∧ r.length < ts.length ∧ many q r = .ok (as', rest) ∧
        as = a :: as' := by
  rw [many] at h
  split at h
  · next heq =>
    cases h
    exact .inl ⟨rfl, rfl, fun a r ha => nomatch heq.symm.trans ha⟩
  · next a r heq =>
    split at h
    · next hlen =>
      cases hm : many q r with
      | error e =>
        rw [hm] at h
        cases h
      | ok x =>
        rw [hm] at h
        cases h
        exact .inr ⟨a, r, x.1, heq, hlen, hm, rfl⟩
    · next hlen =>
      cases h
      refine .inl ⟨rfl, rfl, fun b s hb => ?_⟩
      cases heq.symm.trans hb
      exact Nat.le_of_not_lt hlen

/-- Repetition ends where nothing more can be read. -/
theorem le_length_of_many {as : List α} (h : many q ts = .ok (as, rest)) {a : α}
    {r : List Lexeme} (ha : q rest = .ok (a, r)) : rest.length ≤ r.length := by
  induction hn : ts.length using Nat.strongRecOn generalizing ts as with
  | ind n ih =>
    subst hn
    rcases cases_of_many h with ⟨-, rfl, hstop⟩ | ⟨_, s, _, -, hlen, hm, -⟩
    · exact hstop a r ha
    · exact ih s.length hlen hm rfl

theorem cases_of_optional {a : Option α} (h : Parser.optional q ts = .ok (a, rest)) :
    (∃ b, a = some b ∧ q ts = .ok (b, rest)) ∨ a = none ∧ rest = ts ∧ ∃ e, q ts = .error e := by
  unfold Parser.optional at h
  split at h
  · next heq =>
    cases h
    exact .inl ⟨_, rfl, heq⟩
  · next heq =>
    cases h
    exact .inr ⟨rfl, rfl, _, heq⟩

theorem orElse_of_ok {q' : Parser α} {x : α × List Lexeme} (h : q ts = .ok x) :
    orElse q q' ts = .ok x := by
  rw [orElse, h]

theorem orElse_of_error {q' : Parser α} {x : α × List Lexeme} {e : Fault} (h : q ts = .error e)
    (h' : q' ts = .ok x) : orElse q q' ts = .ok x := by
  simp only [orElse, h, h']

theorem orElse_of_errors {q' : Parser α} {e e' : Fault} (h : q ts = .error e)
    (h' : q' ts = .error e') : ∃ e'', orElse q q' ts = .error e'' := by
  simp only [orElse, h, h']
  exact ⟨_, rfl⟩

theorem accept_of_some {f : Token → Option α} {t : Lexeme} {a : α} (h : f t.token = some a) :
    accept f (t :: ts) = .ok ((a, t.span), ts) := by
  rw [accept]
  simp only [h]

theorem accept_of_none {f : Token → Option α} (h : ∀ t ∈ ts.head?, f t.token = none) :
    accept f ts = .error (unexpected ts) := by
  cases ts with
  | nil => rfl
  | cons t ts =>
    rw [accept]
    simp only [h t rfl]

theorem token_of_eq {k : Token} {t : Lexeme} (h : t.token = k) :
    token k (t :: ts) = .ok ((), ts) := by
  rw [token, bind_of_ok (accept_of_some (if_pos h))]
  rfl

theorem token_of_ne {k : Token} (h : ∀ t ∈ ts.head?, t.token ≠ k) :
    token k ts = .error (unexpected ts) := by
  rw [token, bind_of_error (accept_of_none fun t ht => if_neg (h t ht))]

theorem symbol_of_eq {s : Symbol} {t : Lexeme} (h : t.token = .symbol s) :
    symbol s (t :: ts) = .ok ((), ts) := token_of_eq h

theorem symbol_of_ne {s : Symbol} (h : ∀ t ∈ ts.head?, t.token ≠ .symbol s) :
    symbol s ts = .error (unexpected ts) := token_of_ne h

/-- What is read as an optional token is that token, or nothing. -/
theorem exists_of_optional_token {k : Token} {a : Option Unit}
    (h : Parser.optional (token k) ts = .ok (a, rest)) :
    ∃ ws, ts = ws ++ rest ∧ (a = none ∧ ws = [] ∨ a = some () ∧ kinds ws = [k]) := by
  rcases cases_of_optional h with ⟨_, rfl, hread⟩ | ⟨rfl, rfl, -⟩
  · obtain ⟨t, rfl, ht⟩ := exists_of_token hread
    exact ⟨[t], rfl, .inr ⟨rfl, congrArg (· :: []) ht⟩⟩
  · exact ⟨[], rfl, .inl ⟨rfl, rfl⟩⟩

theorem exists_optional_token {k : Token} {ws : List Lexeme}
    (h : kinds ws = [k] ∨ kinds ws = [] ∧ ∀ t ∈ rest.head?, t.token ≠ k) :
    ∃ a, Parser.optional (token k) (ws ++ rest) = .ok (a, rest) := by
  rcases h with hws | ⟨hws, hrest⟩
  · obtain ⟨t, more, rfl, ht, hmore⟩ := kinds_eq_cons hws
    cases kinds_eq_nil hmore
    exact ⟨some (), optional_of_ok (token_of_eq ht)⟩
  · cases kinds_eq_nil hws
    exact ⟨none, optional_of_error (token_of_ne hrest)⟩

theorem exists_of_name {n : String} {span : Span} (h : name ts = .ok ((n, span), rest)) :
    ∃ t, ts = t :: rest ∧ t.token = .name n ∧ span = t.span := by
  obtain ⟨t, rfl, ht⟩ := exists_of_accept h
  have htoken : t.token = .name n := by
    cases hk : t.token <;> rw [hk] at ht <;> cases ht
    rfl
  have hname : name (t :: rest) = .ok ((n, t.span), rest) := accept_of_some ht
  rw [hname] at h
  cases h
  exact ⟨t, rfl, htoken, rfl⟩

theorem name_cons {t : Lexeme} {n : String} (h : t.token = .name n) (r : List Lexeme) :
    name (t :: r) = .ok ((n, t.span), r) := by
  refine accept_of_some ?_
  rw [h]
  rfl

end Combined

/-! ### Groups in brackets -/

/-- Tokens of these kinds are read as a group in brackets. -/
structure IsGroup (opening close : Symbol) (ks : List Token) : Prop where
  head : ks.head? = some (.symbol opening)
  last : ks.getLast? = some (.symbol close)
  reads : ∀ ts us, kinds ts = ks → balanced opening close (ts ++ us) = .ok (spanOf ts, us)

section Groups

variable {opening close : Symbol} {ts rest : List Lexeme} {span : Span}

theorem exists_of_closing {depth : Nat} (h : closing? opening close depth ts = some (span, rest)) :
    ∃ inner last, ts = inner ++ last :: rest ∧ span = last.span ∧ last.token = .symbol close ∧
      ∀ inner' last' us, kinds inner' = kinds inner → last'.token = last.token →
        closing? opening close depth (inner' ++ last' :: us) = some (last'.span, us) := by
  -- One more token in front is passed over in the same way.
  have step : ∀ {d d' : Nat} {t : Lexeme} {inner : List Lexeme} {last : Lexeme},
      (∀ t' us, t'.token = t.token →
        closing? opening close d (t' :: us) = closing? opening close d' us) →
      (∀ inner' last' us, kinds inner' = kinds inner → last'.token = last.token →
        closing? opening close d' (inner' ++ last' :: us) = some (last'.span, us)) →
      ∀ inner' last' us, kinds inner' = kinds (t :: inner) → last'.token = last.token →
        closing? opening close d (inner' ++ last' :: us) = some (last'.span, us) := by
    intro d d' t inner last hstep hrest inner' last' us hinner hlast
    obtain ⟨t', inner', rfl, ht, hi⟩ := kinds_eq_cons hinner
    rw [List.cons_append, hstep t' _ ht]
    exact hrest inner' last' us hi hlast
  fun_induction closing? opening close depth ts with
  | case1 => cases h
  | case2 depth t ts ho ih =>
    obtain ⟨inner, last, rfl, hs, hl, hall⟩ := ih h
    refine ⟨t :: inner, last, rfl, hs, hl, step (fun t' us ht => ?_) hall⟩
    rw [closing?.eq_def]
    simp only [ht, if_pos ho]
  | case3 t ts ho hc =>
    cases h
    refine ⟨[], t, rfl, rfl, hc, fun inner' last' us hinner hlast => ?_⟩
    rw [kinds_eq_nil hinner, List.nil_append, closing?, hlast, if_neg ho, if_pos hc]
  | case4 t ts ho hc depth ih =>
    obtain ⟨inner, last, rfl, hs, hl, hall⟩ := ih h
    refine ⟨t :: inner, last, rfl, hs, hl, step (fun t' us ht => ?_) hall⟩
    rw [closing?.eq_def]
    simp only [ht, if_neg ho, if_pos hc]
  | case5 => cases h
  | case6 depth t ts ho hc he ih =>
    obtain ⟨inner, last, rfl, hs, hl, hall⟩ := ih h
    refine ⟨t :: inner, last, rfl, hs, hl, step (fun t' us ht => ?_) hall⟩
    rw [closing?.eq_def]
    simp only [ht, if_neg ho, if_neg hc, if_neg he]

theorem exists_of_group (h : balanced opening close ts = .ok (span, rest)) :
    ∃ ws, ts = ws ++ rest ∧ span = spanOf ws ∧ IsGroup opening close (kinds ws) := by
  unfold balanced at h
  split at h
  · cases h
  · next t r =>
    split at h
    · next ht =>
      split at h
      · next s r' hc =>
        cases h
        obtain ⟨inner, last, rfl, rfl, hlast, hall⟩ := exists_of_closing hc
        refine ⟨t :: (inner ++ [last]), by simp, ?_, ?_, ?_, ?_⟩
        · rw [spanOf_concat]
        · simp [ht]
        · simp [hlast, List.getLast?_cons]
        · intro ts us hts
          rw [kinds_cons, kinds_append] at hts
          obtain ⟨t', ts, rfl, ht', hts⟩ := kinds_eq_cons hts
          obtain ⟨inner', lasts, rfl, hinner, hl⟩ := kinds_eq_append hts
          obtain ⟨last', more, rfl, hl', hmore⟩ := kinds_eq_cons hl
          cases kinds_eq_nil hmore
          have hclose := hall inner' last' us hinner hl'
          rw [List.cons_append, List.append_assoc, List.singleton_append, balanced]
          simp only [ht', ht, if_true, hclose, spanOf_concat]
      · cases h
    · cases h

theorem balanced_of_ne (h : ∀ t ∈ ts.head?, t.token ≠ .symbol opening) :
    balanced opening close ts = .error (unexpected ts) := by
  cases ts with
  | nil => rfl
  | cons t ts => rw [balanced, if_neg (h t rfl)]

theorem exists_of_optional_group {a : Option Span}
    (h : Parser.optional (balanced opening close) ts = .ok (a, rest)) :
    ∃ ws, ts = ws ++ rest ∧ (kinds ws = [] ∨ IsGroup opening close (kinds ws)) := by
  rcases cases_of_optional h with ⟨_, -, h⟩ | ⟨-, rfl, -⟩
  · obtain ⟨ws, rfl, -, hgroup⟩ := exists_of_group h
    exact ⟨ws, rfl, .inr hgroup⟩
  · exact ⟨[], rfl, .inl rfl⟩

theorem exists_optional_group {ws : List Lexeme}
    (hws : kinds ws = [] ∨ IsGroup opening close (kinds ws))
    (hrest : ∀ t ∈ rest.head?, t.token ≠ .symbol opening) :
    ∃ a, Parser.optional (balanced opening close) (ws ++ rest) = .ok (a, rest) := by
  rcases hws with hnil | hgroup
  · cases kinds_eq_nil hnil
    exact ⟨none, optional_of_error (balanced_of_ne hrest)⟩
  · exact ⟨some _, optional_of_ok (hgroup.reads ws rest rfl)⟩

end Groups

/-! ### Types -/

section Singles

variable {α : Type} {q : Parser α} {good : Token → Bool} {ts ws rest : List Lexeme}

/-- A parser that reads one token if that is good reads all good ones in front. -/
theorem exists_of_many_single (hq : ∀ ts a r, q ts = .ok (a, r) → ∃ t, ts = t :: r ∧ good t.token)
    (hgood : ∀ t ts, good t.token → ∃ a, q (t :: ts) = .ok (a, ts)) {as : List α}
    (h : many q ts = .ok (as, rest)) :
    ∃ ws, ts = ws ++ rest ∧ (∀ w ∈ ws, good w.token) ∧ ∀ t ∈ rest.head?, good t.token = false := by
  induction ts generalizing as with
  | nil =>
    rcases cases_of_many h with ⟨-, rfl, -⟩ | ⟨a, r, -, ha, hlen, -⟩
    · exact ⟨[], rfl, nofun, nofun⟩
    · exact absurd hlen (Nat.not_lt_zero _)
  | cons t ts ih =>
    rcases cases_of_many h with ⟨-, rfl, hstop⟩ | ⟨a, r, as', ha, -, hm, -⟩
    · refine ⟨[], rfl, nofun, ?_⟩
      rintro t ⟨⟩
      rw [Bool.eq_false_iff]
      intro ht
      obtain ⟨a, ha⟩ := hgood t ts ht
      exact absurd (hstop a ts ha) (Nat.not_le_of_lt (Nat.lt_succ_self _))
    · obtain ⟨t', heq, ht⟩ := hq _ _ _ ha
      cases heq
      obtain ⟨ws, rfl, hws, hrest⟩ := ih hm
      refine ⟨t :: ws, rfl, ?_, hrest⟩
      intro w hw
      rcases List.mem_cons.mp hw with rfl | hw
      · exact ht
      · exact hws w hw

theorem many_of_singles (hq : ∀ ts a r, q ts = .ok (a, r) → ∃ t, ts = t :: r ∧ good t.token)
    (hgood : ∀ t ts, good t.token → ∃ a, q (t :: ts) = .ok (a, ts))
    (hws : ∀ w ∈ ws, good w.token) (hrest : ∀ t ∈ rest.head?, good t.token = false) :
    ∃ as, many q (ws ++ rest) = .ok (as, rest) := by
  induction ws with
  | nil =>
    cases hr : q rest with
    | error e => exact ⟨[], many_of_error hr⟩
    | ok x =>
      obtain ⟨t, rfl, ht⟩ := hq rest x.1 x.2 hr
      rw [hrest t rfl] at ht
      cases ht
  | cons w ws ih =>
    obtain ⟨as, has⟩ := ih fun v hv => hws v (List.mem_cons_of_mem _ hv)
    obtain ⟨a, ha⟩ := hgood w (ws ++ rest) (hws w (List.mem_cons_self ..))
    exact ⟨a :: as, many_of_ok ha (Nat.lt_succ_self _) has⟩

end Singles

/-- The token is a name in front of a type that belongs to it. -/
def isQualifier (k : Token) : Bool := k.name?.any fun n => decide (n ∈ typeQualifiers)

theorem exists_of_typeQualifier {ts r : List Lexeme} {a : Unit}
    (h : typeQualifier ts = .ok (a, r)) :
    ∃ t, ts = t :: r ∧ isQualifier t.token = true := by
  obtain ⟨⟨_, span⟩, _, ha, hr⟩ := bind_eq_ok.mp h
  cases hr
  obtain ⟨t, rfl, ht⟩ := exists_of_accept ha
  obtain ⟨n, hn, hmem⟩ := Option.bind_eq_some_iff.mp ht
  split at hmem
  · next hq => exact ⟨t, rfl, by simp [isQualifier, hn, hq]⟩
  · cases hmem

theorem typeQualifier_of_isQualifier (t : Lexeme) (ts : List Lexeme)
    (h : isQualifier t.token = true) : ∃ a, typeQualifier (t :: ts) = .ok (a, ts) := by
  refine ⟨(), ?_⟩
  rw [typeQualifier, bind_of_ok (a := ((), t.span)) (s := ts)]
  · rfl
  · refine accept_of_some ?_
    cases hn : t.token.name? with
    | none =>
      rw [isQualifier, hn] at h
      cases h
    | some n =>
      rw [isQualifier, hn] at h
      exact if_pos (of_decide_eq_true h)

/-- Tokens of these kinds are a type. -/
inductive IsType : List Token → Prop
  | mk {qs un args : List Token} {n : String} : (∀ q ∈ qs, isQualifier q = true) →
      un = [] ∧ isQualifier (.name n) = false ∨ un = [.keyword .unsigned] →
      args = [] ∨ IsGroup .leftAngle .rightAngle args → IsType (qs ++ (un ++ (.name n :: args)))

section Types

variable {p : Preprocessed} {ts rest : List Lexeme} {ks : List Token}

/-- **What is read as a type is one**, after a `const`. -/
theorem exists_of_typeName {T : TypeName} (h : typeName p ts = .ok (T, rest)) :
    ∃ pre ws, ts = pre ++ (ws ++ rest) ∧ T.text = sourceOf p ws ∧ IsType (kinds ws) ∧
      (T.isConst = false ∧ pre = [] ∨ T.isConst = true ∧ kinds pre = [.keyword .const]) := by
  obtain ⟨c, s₁, hconst, h⟩ := bind_eq_ok.mp h
  obtain ⟨start, _, hget, h⟩ := bind_eq_ok.mp h
  cases hget
  obtain ⟨qs, s₂, hqs, h⟩ := bind_eq_ok.mp h
  obtain ⟨u, s₃, hu, h⟩ := bind_eq_ok.mp h
  obtain ⟨⟨n, span⟩, s₄, hn, h⟩ := bind_eq_ok.mp h
  obtain ⟨b, s₅, hb, h⟩ := bind_eq_ok.mp h
  obtain ⟨_, _, hget, h⟩ := bind_eq_ok.mp h
  cases hget
  cases h
  obtain ⟨ws, rfl, hws, hstop⟩ := exists_of_many_single (fun _ _ _ => exists_of_typeQualifier)
    typeQualifier_of_isQualifier hqs
  obtain ⟨un, rfl, hun⟩ := exists_of_optional_token hu
  obtain ⟨t, rfl, ht, -⟩ := exists_of_name hn
  obtain ⟨args, rfl, hargs⟩ := exists_of_optional_group hb
  have hun : kinds un = [] ∧ isQualifier (.name n) = false ∨ kinds un = [.keyword .unsigned] := by
    rcases hun with ⟨-, rfl⟩ | ⟨-, hun⟩
    · exact .inl ⟨rfl, ht ▸ hstop t rfl⟩
    · exact .inr hun
  have htype : IsType (kinds (ws ++ (un ++ t :: args))) := by
    rw [kinds_append, kinds_append, kinds_cons, ht]
    refine .mk ?_ hun hargs
    intro k hk
    obtain ⟨w, hw, rfl⟩ := List.mem_map.mp hk
    exact hws w hw
  have hread : consumed (ws ++ (un ++ t :: (args ++ rest))) rest = ws ++ (un ++ t :: args) :=
    consumed_of_eq_append (by simp)
  obtain ⟨pre, rfl, hpre⟩ := exists_of_optional_token hconst
  refine ⟨pre, ws ++ (un ++ t :: args), by simp, congrArg (sourceOf p) hread, htype, ?_⟩
  rcases hpre with ⟨rfl, rfl⟩ | ⟨rfl, hpre⟩
  · exact .inl ⟨rfl, rfl⟩
  · exact .inr ⟨rfl, hpre⟩

/-- A type starts with a word that is no `const` or other modifier reserved for parameters. -/
theorem IsType.head (h : IsType ks) :
    ∃ k, ks.head? = some k ∧ (k = .keyword .unsigned ∨ ∃ n, k = .name n) := by
  cases h with
  | @mk qs un args n hqs hun _ =>
    cases qs with
    | cons q qs =>
      have hq := hqs q (List.mem_cons_self ..)
      cases q <;> first | exact ⟨_, rfl, .inr ⟨_, rfl⟩⟩ | cases hq
    | nil =>
      rcases hun with ⟨rfl, -⟩ | rfl
      · exact ⟨_, rfl, .inr ⟨n, rfl⟩⟩
      · exact ⟨_, rfl, .inl rfl⟩

theorem IsType.ne_nil (h : IsType ks) : ks ≠ [] := by
  rintro rfl
  obtain ⟨k, hk, -⟩ := h.head
  cases hk

theorem IsType.optional_const {ws : List Lexeme} (h : IsType (kinds ws)) (us : List Lexeme) :
    Parser.optional (keyword .const) (ws ++ us) = .ok (none, ws ++ us) := by
  refine optional_of_error (token_of_ne ?_)
  obtain ⟨k, hk, hk'⟩ := h.head
  obtain ⟨w, ws, rfl⟩ := List.exists_cons_of_ne_nil fun hnil => h.ne_nil (congrArg kinds hnil)
  cases hk
  rintro u ⟨⟩
  rcases hk' with hk' | ⟨n, hk'⟩
  · rw [hk']
    nofun
  · rw [hk']
    nofun

theorem IsType.last (h : IsType ks) :
    ∃ k, ks.getLast? = some k ∧ (isWord k = true ∨ k = .symbol .rightAngle) := by
  cases h with
  | @mk qs un args n _ _ hargs =>
    rcases hargs with rfl | hargs
    · refine ⟨.name n, ?_, .inl rfl⟩
      rw [← List.append_assoc, List.getLast?_concat]
    · refine ⟨_, ?_, .inr rfl⟩
      rw [← List.singleton_append, ← List.append_assoc, ← List.append_assoc, List.getLast?_append,
        hargs.last]
      rfl

theorem typeName_of_isType (p : Preprocessed) (pre : List Lexeme) {ws us : List Lexeme}
    {c : Option Unit} (h : IsType (kinds ws))
    (hc : Parser.optional (keyword .const) (pre ++ (ws ++ us)) = .ok (c, ws ++ us))
    (hus : ∀ u ∈ us.head?, u.token ≠ .symbol .leftAngle) :
    typeName p (pre ++ (ws ++ us)) = .ok (⟨sourceOf p ws, c.isSome⟩, us) := by
  generalize hks : kinds ws = ks at h
  cases h with
  | @mk qs un args n hqs hun hargs =>
    obtain ⟨qw, rest, rfl, rfl, hrest⟩ := kinds_eq_append hks
    obtain ⟨uw, rest, rfl, rfl, hname⟩ := kinds_eq_append hrest
    obtain ⟨t, aw, rfl, ht, rfl⟩ := kinds_eq_cons hname
    have hstop : ∀ u ∈ (uw ++ (t :: (aw ++ us))).head?, isQualifier u.token = false := by
      rcases hun with ⟨hnil, hn⟩ | hun
      · cases kinds_eq_nil hnil
        rintro u ⟨⟩
        rw [ht]
        exact hn
      · obtain ⟨u, _, rfl, hu, -⟩ := kinds_eq_cons hun
        rintro v ⟨⟩
        rw [hu]
        rfl
    obtain ⟨as, hmany⟩ := many_of_singles (fun _ _ _ => exists_of_typeQualifier)
      typeQualifier_of_isQualifier (fun w hw => hqs _ (List.mem_map_of_mem hw)) hstop
    have hname : ∀ u ∈ (t :: (aw ++ us)).head?, u.token ≠ .keyword .unsigned := by
      rintro u ⟨⟩
      rw [ht]
      nofun
    obtain ⟨b, hunsigned⟩ := exists_optional_token (hun.symm.imp_right fun h => ⟨h.1, hname⟩)
    obtain ⟨b', hangle⟩ := exists_optional_group hargs hus
    have hconsumed : consumed (qw ++ (uw ++ t :: aw) ++ us) us = qw ++ (uw ++ t :: aw) :=
      consumed_of_eq_append rfl
    have hsplit : qw ++ (uw ++ t :: aw) ++ us = qw ++ (uw ++ (t :: (aw ++ us))) := by simp
    rw [hsplit] at hc hconsumed ⊢
    rw [typeName, bind_of_ok hc]
    refine (bind_of_ok rfl).trans ?_
    rw [bind_of_ok hmany]
    refine (bind_of_ok hunsigned).trans ?_
    rw [bind_of_ok (name_cons ht _), bind_of_ok hangle]
    refine (bind_of_ok rfl).trans ?_
    rw [hconsumed]
    rfl

end Types

/-! ### Parameters -/

/-- Tokens of these kinds are groups in brackets. -/
inductive IsGroups (opening close : Symbol) : List Token → Prop
  | nil : IsGroups opening close []
  | cons {ks ls : List Token} : IsGroup opening close ks → IsGroups opening close ls →
      IsGroups opening close (ks ++ ls)

section Groups

variable {opening close : Symbol} {ts rest : List Lexeme}

theorem exists_of_many_balanced {spans : List Span}
    (h : many (balanced opening close) ts = .ok (spans, rest)) :
    ∃ ws, ts = ws ++ rest ∧ IsGroups opening close (kinds ws) := by
  induction hn : ts.length using Nat.strongRecOn generalizing ts spans with
  | ind n ih =>
    subst hn
    rcases cases_of_many h with ⟨-, rfl, -⟩ | ⟨a, r, as, ha, hlen, hm, -⟩
    · exact ⟨[], rfl, .nil⟩
    · obtain ⟨ws, rfl, -, hgroup⟩ := exists_of_group ha
      obtain ⟨vs, rfl, hvs⟩ := ih r.length hlen hm rfl
      refine ⟨ws ++ vs, by simp, ?_⟩
      rw [kinds_append]
      exact .cons hgroup hvs

theorem IsGroups.reads {ks : List Token} (h : IsGroups opening close ks)
    (ws rest : List Lexeme) (hws : kinds ws = ks)
    (hrest : ∀ t ∈ rest.head?, t.token ≠ .symbol opening) :
    ∃ spans, many (balanced opening close) (ws ++ rest) = .ok (spans, rest) := by
  induction h generalizing ws with
  | nil =>
    cases kinds_eq_nil hws
    exact ⟨[], many_of_error (balanced_of_ne hrest)⟩
  | cons hk _ ih =>
    obtain ⟨us, vs, rfl, hus, hvs⟩ := kinds_eq_append hws
    obtain ⟨spans, hspans⟩ := ih vs hvs
    have hread := hk.reads us (vs ++ rest) hus
    rw [← List.append_assoc] at hread
    exact ⟨_, many_of_ok hread (shrinks_balanced _ _ _ _ _ hread).2 hspans⟩

theorem IsGroups.last {ks : List Token} (h : IsGroups opening close ks) :
    ks = [] ∨ ks.getLast? = some (.symbol close) := by
  induction h with
  | nil => exact .inl rfl
  | @cons ks ls hk _ ih =>
    right
    rcases ih with rfl | ih
    · rw [List.append_nil]
      exact hk.last
    · rw [List.getLast?_append, ih]
      rfl

end Groups

/-- The modifier that a token is; the flag tells whether a type and a name follow it. -/
def modifierOf (k : Token) (more : Bool) : Option Modifier :=
  match k with
  | .keyword .input => some .input
  | .keyword .output => some .output
  | .keyword .inputOutput => some .inputOutput
  | .keyword .uniform => some .uniform
  | .keyword .const => some .const
  | .name n => if more then Modifier.contextual.lookup n else none
  | _ => none

theorem modifier_cons (t : Lexeme) (r : List Lexeme) :
    modifier (t :: r) =
      match modifierOf t.token (declaresMore r) with
      | some m => .ok (m, r)
      | none => .error (unexpected (t :: r)) := by
  unfold modifier modifierOf
  obtain ⟨k, span⟩ := t
  cases k with
  | keyword k => cases k <;> rfl
  | name n =>
    dsimp only
    cases declaresMore r <;> cases Modifier.contextual.lookup n <;> rfl
  | _ => rfl

/-- The tokens start with a mark that follows the name of a parameter. -/
def StopAhead (us : List Lexeme) : Prop := ∃ u r, us = u :: r ∧ isStop u.token = true

section Modifiers

variable {ws vs us ws' vs' us' : List Lexeme}

theorem endsName_of_isStop {k : Token} (h : isStop k = true) : endsName k = true := by
  cases k with
  | symbol s => cases s <;> first | rfl | cases h
  | _ => cases h

/-- Only the next two tokens are looked at, and behind a parameter one stop is as good as
another. -/
theorem declaresMore_append (h : kinds ws = kinds ws') (hne : ws ≠ []) (hu : StopAhead us)
    (hu' : StopAhead us') : declaresMore (ws ++ us) = declaresMore (ws' ++ us') := by
  obtain ⟨u, r, rfl, hu⟩ := hu
  obtain ⟨u', r', rfl, hu'⟩ := hu'
  obtain ⟨t, ws, rfl⟩ := List.exists_cons_of_ne_nil hne
  obtain ⟨t', ws', rfl, ht, hws⟩ := kinds_eq_cons h.symm
  cases ws with
  | nil =>
    cases kinds_eq_nil hws
    simp [declaresMore, ht, endsName_of_isStop hu, endsName_of_isStop hu']
  | cons w ws =>
    obtain ⟨w', ws', rfl, hw, -⟩ := kinds_eq_cons hws
    simp [declaresMore, ht, hw]

/-- If all modifiers are read behind a token, it is one of them. -/
theorem modifierOf_of_many {w : Lexeme} {r rest : List Lexeme} {as : List Modifier}
    (h : many modifier (w :: r) = .ok (as, rest)) (hlen : rest.length ≤ r.length) :
    ∃ m as', modifierOf w.token (declaresMore r) = some m ∧ many modifier r = .ok (as', rest) := by
  rcases cases_of_many h with ⟨-, rfl, -⟩ | ⟨a, r', as', ha, -, hm, -⟩
  · exact absurd hlen (Nat.not_le_of_lt (Nat.lt_succ_self _))
  · rw [modifier_cons] at ha
    split at ha
    · next hmod =>
      cases ha
      exact ⟨a, as', hmod, hm⟩
    · cases ha

/-- Tokens of the same kinds in front of a stop start with the same modifiers. -/
theorem many_modifier_of_kinds {as : List Modifier}
    (h : many modifier (ws ++ (vs ++ us)) = .ok (as, vs ++ us)) (hlen : 2 ≤ vs.length)
    (hu : StopAhead us) (hws : kinds ws' = kinds ws) (hvs : kinds vs' = kinds vs)
    (hu' : StopAhead us') :
    ∃ as', many modifier (ws' ++ (vs' ++ us')) = .ok (as', vs' ++ us') := by
  induction ws generalizing ws' as with
  | nil =>
    cases kinds_eq_nil hws
    obtain ⟨v, vs, rfl⟩ :=
      List.exists_cons_of_length_pos (Nat.lt_of_succ_le (Nat.le_of_succ_le hlen))
    obtain ⟨v', vs', rfl, hv, hvs⟩ := kinds_eq_cons hvs
    have hne : vs ≠ [] := by
      rintro rfl
      exact absurd hlen (Nat.not_le_of_lt (Nat.lt_succ_self _))
    have hmore := declaresMore_append hvs.symm hne hu hu'
    have hstop : modifierOf v.token (declaresMore (vs ++ us)) = none := by
      rcases cases_of_many h with ⟨-, -, hstop⟩ | ⟨a, r, _, -, hlt, hm, -⟩
      · cases hm : modifierOf v.token (declaresMore (vs ++ us)) with
        | none => rfl
        | some m =>
          have hread := modifier_cons v (vs ++ us)
          rw [hm] at hread
          exact absurd (hstop m _ hread) (Nat.not_le_of_lt (Nat.lt_succ_self _))
      · exact absurd (keeps_modifier.many _ _ _ hm).length_le (Nat.not_le_of_lt hlt)
    refine ⟨[], many_of_error (e := unexpected (v' :: (vs' ++ us'))) ?_⟩
    rw [List.nil_append, List.cons_append, modifier_cons, hv, ← hmore, hstop]
  | cons w ws ih =>
    rw [kinds_cons] at hws
    obtain ⟨w', ws', rfl, hw, hws⟩ := kinds_eq_cons hws
    have hne : ws ++ vs ≠ [] := by
      intro hnil
      rw [(List.append_eq_nil_iff.mp hnil).2] at hlen
      exact absurd hlen (by decide)
    have hkinds : kinds (ws ++ vs) = kinds (ws' ++ vs') := by
      rw [kinds_append, kinds_append, hws, hvs]
    have hmore := declaresMore_append hkinds hne hu hu'
    rw [List.append_assoc, List.append_assoc] at hmore
    rw [List.cons_append] at h
    obtain ⟨m, as, hmod, hm⟩ := modifierOf_of_many h (by simp)
    obtain ⟨as', has⟩ := ih hm hws
    refine ⟨m :: as', many_of_ok ?_ (Nat.lt_succ_self _) has⟩
    rw [List.cons_append, modifier_cons, hw, ← hmore, hmod]
    rfl

/-- What is read as modifiers are words. -/
theorem isWord_of_many_modifier {as : List Modifier} {rest : List Lexeme}
    (h : many modifier (ws ++ rest) = .ok (as, rest)) : ∀ w ∈ ws, isWord w.token = true := by
  induction ws generalizing as with
  | nil => exact nofun
  | cons w ws ih =>
    obtain ⟨m, as, hmod, hm⟩ := modifierOf_of_many h (by simp)
    intro v hv
    rcases List.mem_cons.mp hv with rfl | hv
    · cases hk : v.token with
      | keyword => rfl
      | name => rfl
      | _ =>
        rw [hk] at hmod
        cases hmod
    · exact ih hm v hv

end Modifiers

/-- The first of these kinds are read as modifiers if the others and a stop follow. -/
def ReadsModifiers (ms ks : List Token) : Prop :=
  ∀ ws vs us, kinds ws = ms → kinds vs = ks → StopAhead us →
    ∃ as, many modifier (ws ++ (vs ++ us)) = .ok (as, vs ++ us)

/-- Tokens of these kinds are a parameter, up to its last bracket. -/
inductive IsParam : List Token → Prop
  | mk {ms ty dims : List Token} {n : String} : IsType ty →
      IsGroups .leftSquare .rightSquare dims → ReadsModifiers ms (ty ++ .name n :: dims) →
      (∀ m ∈ ms, isWord m = true) → IsParam (ms ++ (ty ++ .name n :: dims))

section Params

variable {p : Preprocessed} {ts rest : List Lexeme} {ks : List Token}

/-- Behind the name of a parameter stands a stop. -/
theorem stopAhead_of_semantic {s₁ s₂ : List Lexeme} {a : Option String}
    {v : Option (List Lexeme)} (hs : semantic s₁ = .ok (a, s₂))
    (hv : Parser.optional defaultValue s₂ = .ok (v, rest)) (hrest : StopAhead rest) :
    StopAhead s₁ := by
  obtain ⟨bs, _, hbs, hret⟩ := bind_eq_ok.mp hs
  cases hret
  rcases cases_of_many hbs with ⟨-, rfl, -⟩ | ⟨b, r, _, hb, -, -, -⟩
  · rcases cases_of_optional hv with ⟨_, -, hv⟩ | ⟨-, rfl, -⟩
    · obtain ⟨_, _, heq, -⟩ := bind_eq_ok.mp hv
      obtain ⟨t, rfl, ht⟩ := exists_of_token heq
      exact ⟨t, _, rfl, by rw [ht]; rfl⟩
    · exact hrest
  · obtain ⟨_, _, hcolon, -⟩ := bind_eq_ok.mp hb
    obtain ⟨t, rfl, ht⟩ := exists_of_token hcolon
    exact ⟨t, _, rfl, by rw [ht]; rfl⟩

/-- **What is read as a parameter is one**, up to its last bracket. -/
theorem exists_of_param {P : Param} (h : param p ts = .ok (P, rest)) (hrest : StopAhead rest) :
    ∃ ws after, ts = ws ++ after ∧ P.text = sourceOf p ws ∧ IsParam (kinds ws) ∧
      StopAhead after := by
  obtain ⟨start, _, hget, h⟩ := bind_eq_ok.mp h
  cases hget
  obtain ⟨ms, s₁, hms, h⟩ := bind_eq_ok.mp h
  obtain ⟨T, s₂, hT, h⟩ := bind_eq_ok.mp h
  obtain ⟨⟨n, span⟩, s₃, hn, h⟩ := bind_eq_ok.mp h
  obtain ⟨dims, s₄, hdims, h⟩ := bind_eq_ok.mp h
  obtain ⟨_, _, hget, h⟩ := bind_eq_ok.mp h
  cases hget
  obtain ⟨a, s₅, ha, h⟩ := bind_eq_ok.mp h
  obtain ⟨v, s₆, hv, h⟩ := bind_eq_ok.mp h
  cases h
  have hstop := stopAhead_of_semantic ha hv hrest
  obtain ⟨pre, tw, rfl, -, htype, hconst⟩ := exists_of_typeName hT
  obtain ⟨t, rfl, ht, -⟩ := exists_of_name hn
  obtain ⟨dw, rfl, hdw⟩ := exists_of_many_balanced hdims
  obtain ⟨mw, rfl⟩ := keeps_modifier.many _ _ _ hms
  -- A `const` in front of the type is read as a modifier.
  obtain rfl : pre = [] := by
    rcases hconst with ⟨-, rfl⟩ | ⟨-, hpre⟩
    · rfl
    · obtain ⟨c, more, rfl, hc, -⟩ := kinds_eq_cons hpre
      have hread := modifier_cons c (more ++ (tw ++ t :: (dw ++ s₄)))
      rw [hc] at hread
      exact absurd (le_length_of_many hms hread) (Nat.not_le_of_lt (Nat.lt_succ_self _))
  have hlen : 2 ≤ (tw ++ t :: dw).length := by
    have := List.length_pos_iff.mpr (fun hnil => htype.ne_nil (congrArg kinds hnil))
    simp only [List.length_append, List.length_cons]
    omega
  have hsplit : tw ++ t :: (dw ++ s₄) = tw ++ t :: dw ++ s₄ := by simp
  rw [List.nil_append, hsplit] at hms ⊢
  have hmods : ReadsModifiers (kinds mw) (kinds tw ++ .name n :: kinds dw) := by
    intro ws vs us hws hvs hus
    refine many_modifier_of_kinds hms hlen hstop hws ?_ hus
    rw [hvs, kinds_append, kinds_cons, ht]
  have hparam : IsParam (kinds (mw ++ (tw ++ t :: dw))) := by
    rw [kinds_append, kinds_append, kinds_cons, ht]
    refine .mk htype hdw hmods fun k hk => ?_
    obtain ⟨w, hw, rfl⟩ := List.mem_map.mp hk
    exact isWord_of_many_modifier hms w hw
  have hread : consumed (mw ++ (tw ++ t :: dw ++ s₄)) s₄ = mw ++ (tw ++ t :: dw) :=
    consumed_of_eq_append (by simp)
  exact ⟨mw ++ (tw ++ t :: dw), s₄, by simp, by rw [hread], hparam, hstop⟩

theorem IsParam.ne_nil (h : IsParam ks) : ks ≠ [] := by
  cases h with
  | mk => simp

theorem IsParam.last (h : IsParam ks) :
    ∃ k, ks.getLast? = some k ∧ (isWord k = true ∨ k = .symbol .rightSquare) := by
  cases h with
  | @mk ms ty dims n _ hdims _ _ =>
    rcases hdims.last with rfl | hlast
    · refine ⟨.name n, ?_, .inl rfl⟩
      rw [← List.append_assoc, List.getLast?_concat]
    · refine ⟨_, ?_, .inr rfl⟩
      rw [← List.singleton_append, ← List.append_assoc, ← List.append_assoc, List.getLast?_append,
        hlast]
      rfl

theorem IsType.exists_words (h : IsType ks) :
    ∃ ws rest, ks = ws ++ rest ∧ ws ≠ [] ∧ (∀ w ∈ ws, isWord w = true) ∧
      (rest = [] ∨ rest.head? = some (.symbol .leftAngle)) := by
  cases h with
  | @mk qs un args n hqs hun hargs =>
    refine ⟨qs ++ (un ++ [.name n]), args, by simp, by simp, fun w hw => ?_,
      hargs.imp_right IsGroup.head⟩
    rcases List.mem_append.mp hw with hw | hw
    · have hq := hqs w hw
      cases w <;> first | rfl | cases hq
    rcases List.mem_append.mp hw with hw | hw
    · rcases hun with ⟨rfl, -⟩ | rfl
      · cases hw
      · cases List.mem_singleton.mp hw
        rfl
    · cases List.mem_singleton.mp hw
      rfl

/-- What comes after the words in front is a bracket or nothing. -/
theorem IsParam.exists_words (h : IsParam ks) :
    ∃ ws rest, ks = ws ++ rest ∧ ws ≠ [] ∧ (∀ w ∈ ws, isWord w = true) ∧
      rest.head? ≠ some (.symbol .rightParen) := by
  cases h with
  | @mk ms ty dims n htype hdims _ hms =>
    obtain ⟨ws, rest, rfl, hne, hws, hrest⟩ := htype.exists_words
    have hwords : ∀ w ∈ ms ++ ws, isWord w = true := by
      intro w hw
      rcases List.mem_append.mp hw with hw | hw
      · exact hms w hw
      · exact hws w hw
    rcases hrest with rfl | hrest
    · refine ⟨ms ++ ws, .name n :: dims, by simp, by simp [hne], hwords, nofun⟩
    · refine ⟨ms ++ ws, rest ++ .name n :: dims, by simp, by simp [hne], hwords, ?_⟩
      rw [List.head?_append, hrest]
      nofun

theorem IsParam.head (h : IsParam ks) : ∃ k, ks.head? = some k ∧ isWord k = true := by
  obtain ⟨ws, rest, rfl, hne, hws, -⟩ := h.exists_words
  obtain ⟨w, ws, rfl⟩ := List.exists_cons_of_ne_nil hne
  exact ⟨w, rfl, hws w (List.mem_cons_self ..)⟩

/-- A parameter is not the word `void` in front of a parenthesis. -/
theorem IsParam.second_ne (h : IsParam ks) {a b : Token} {ls : List Token}
    (hks : ks = a :: b :: ls) : b ≠ .symbol .rightParen := by
  obtain ⟨ws, rest, hsplit, hne, hws, hrest⟩ := h.exists_words
  obtain ⟨w, ws, rfl⟩ := List.exists_cons_of_ne_nil hne
  rw [hsplit] at hks
  obtain ⟨rfl, hcons⟩ := List.cons.inj hks
  rintro rfl
  cases ws with
  | nil =>
    have hrest' : rest = .symbol .rightParen :: ls := hcons
    rw [hrest'] at hrest
    exact hrest rfl
  | cons v ws =>
    obtain ⟨rfl, -⟩ := List.cons.inj hcons
    cases hws (.symbol .rightParen) (by simp)

/-- One semantic is read. -/
theorem semantic_cons {us : List Lexeme} {c s : Lexeme} {n : String}
    (hc : c.token = .symbol .colon) (hs : s.token = .name n) (hn : n ∉ placements)
    (hus : ∀ u ∈ us.head?, u.token ≠ .symbol .colon) :
    semantic (c :: s :: us) = .ok (some n, us) := by
  have hbinding : binding (c :: s :: us) = .ok (some n, us) := by
    rw [binding, bind_of_ok (symbol_of_eq hc), bind_of_ok (name_cons hs us)]
    simp only [if_neg hn]
    rfl
  have hend : binding us = .error (unexpected us) := bind_of_error (symbol_of_ne hus)
  have hmany := many_of_ok hbinding (by simp only [List.length_cons]; omega) (many_of_error hend)
  rw [semantic, bind_of_ok hmany]
  rfl

/-- **A parameter is read again** with a semantic behind it. -/
theorem IsParam.reads (p : Preprocessed) {ws us : List Lexeme} {c s : Lexeme} {n : String}
    (h : IsParam (kinds ws)) (hc : c.token = .symbol .colon) (hs : s.token = .name n)
    (hn : n ∉ placements)
    (hus : ∀ u ∈ us.head?, u.token = .symbol .comma ∨ u.token = .symbol .rightParen) :
    ∃ P, param p (ws ++ c :: s :: us) = .ok (P, us) ∧ P.text = sourceOf p ws := by
  generalize hks : kinds ws = ks at h
  cases h with
  | @mk ms ty dims n' htype hdims hmods _ =>
    obtain ⟨mw, rest, rfl, hmw, hrest⟩ := kinds_eq_append hks
    obtain ⟨tw, rest, rfl, rfl, hname⟩ := kinds_eq_append hrest
    obtain ⟨t, dw, rfl, ht, rfl⟩ := kinds_eq_cons hname
    have hstop : StopAhead (c :: s :: us) := ⟨c, _, rfl, by rw [hc]; rfl⟩
    obtain ⟨as, has⟩ := hmods mw (tw ++ t :: dw) (c :: s :: us) hmw hrest hstop
    have hT := typeName_of_isType p [] htype
      (htype.optional_const (t :: (dw ++ c :: s :: us))) (by rintro u ⟨⟩; rw [ht]; nofun)
    obtain ⟨spans, hspans⟩ := hdims.reads dw (c :: s :: us) rfl
      (by rintro u ⟨⟩; rw [hc]; nofun)
    have hne : ∀ {k : Token}, k ≠ .symbol .comma → k ≠ .symbol .rightParen →
        ∀ u ∈ us.head?, u.token ≠ k := by
      rintro k hcomma hparen u hu rfl
      rcases hus u hu with hu | hu
      · exact hcomma hu
      · exact hparen hu
    have hsemantic := semantic_cons hc hs hn (hne nofun nofun)
    have hvalue : Parser.optional defaultValue us = .ok (none, us) :=
      optional_of_error (bind_of_error (symbol_of_ne (hne nofun nofun)))
    have hconsumed : consumed (mw ++ (tw ++ t :: (dw ++ c :: s :: us))) (c :: s :: us) =
        mw ++ (tw ++ t :: dw) := consumed_of_eq_append (by simp)
    have hsplit : mw ++ (tw ++ t :: dw) ++ c :: s :: us =
        mw ++ (tw ++ t :: (dw ++ c :: s :: us)) := by simp
    rw [List.append_assoc, List.cons_append] at has
    rw [List.nil_append] at hT
    rw [hsplit]
    refine ⟨_, bind_eq_ok.mpr ⟨_, _, rfl, bind_eq_ok.mpr ⟨_, _, has, bind_eq_ok.mpr ⟨_, _, hT,
      bind_eq_ok.mpr ⟨_, _, name_cons ht _, bind_eq_ok.mpr ⟨_, _, hspans, bind_eq_ok.mpr ⟨_, _, rfl,
        bind_eq_ok.mpr ⟨_, _, hsemantic, bind_eq_ok.mpr ⟨_, _, hvalue, rfl⟩⟩⟩⟩⟩⟩⟩⟩, ?_⟩
    exact congrArg (sourceOf p) hconsumed

end Params

/-! ### Functions -/

/-- The tokens `ws` are a parameter that stands within `ts`, in front of a stop. -/
def ParamWithin (ts ws : List Lexeme) : Prop :=
  IsParam (kinds ws) ∧ ∃ before after, ts = before ++ (ws ++ after) ∧ StopAhead after

section Functions

variable {p : Preprocessed} {ts rest us : List Lexeme}

theorem ParamWithin.append_left {ws : List Lexeme} (h : ParamWithin ts ws) (us : List Lexeme) :
    ParamWithin (us ++ ts) ws := by
  obtain ⟨hparam, before, after, rfl, hstop⟩ := h
  exact ⟨hparam, us ++ before, after, by simp, hstop⟩

theorem exists_of_many_params {Ps : List Param} {u : Lexeme}
    (h : many (do symbol .comma; param p) ts = .ok (Ps, u :: rest))
    (hu : u.token = .symbol .rightParen) :
    StopAhead ts ∧ ∃ wss : List (List Lexeme), Ps.map Param.text = wss.map (sourceOf p) ∧
      ∀ ws ∈ wss, ParamWithin ts ws := by
  induction hn : ts.length using Nat.strongRecOn generalizing ts Ps with
  | ind n ih =>
    subst hn
    rcases cases_of_many h with ⟨rfl, rfl, -⟩ | ⟨P, r, Ps, hP, hlen, hm, rfl⟩
    · exact ⟨⟨u, rest, rfl, by rw [hu]; rfl⟩, [], rfl, nofun⟩
    · obtain ⟨hstop, wss, hwss, hwithin⟩ := ih r.length hlen hm rfl
      obtain ⟨_, s, hcomma, hread⟩ := bind_eq_ok.mp hP
      obtain ⟨c, rfl, hc⟩ := exists_of_token hcomma
      obtain ⟨before, hr⟩ := keeps_param p _ _ _ hread
      obtain ⟨ws, after, rfl, htext, hparam, hafter⟩ := exists_of_param hread hstop
      refine ⟨⟨c, _, rfl, by rw [hc]; rfl⟩, ws :: wss, ?_, ?_⟩
      · rw [List.map_cons, List.map_cons, htext, hwss]
      · intro vs hvs
        rcases List.mem_cons.mp hvs with rfl | hvs
        · exact ⟨hparam, [c], after, rfl, hafter⟩
        · rw [← hr]
          exact (hwithin vs hvs).append_left (c :: before)

theorem exists_of_params {Ps : List Param} (h : params p ts = .ok (Ps, rest)) :
    ∃ wss : List (List Lexeme), Ps.map Param.text = wss.map (sourceOf p) ∧
      ∀ ws ∈ wss, ParamWithin ts ws := by
  obtain ⟨_, s, hparen, hread⟩ := bind_eq_ok.mp h
  obtain ⟨t, rfl, -⟩ := exists_of_token hparen
  suffices hs : ∃ wss : List (List Lexeme), Ps.map Param.text = wss.map (sourceOf p) ∧
      ∀ ws ∈ wss, ParamWithin s ws by
    obtain ⟨wss, hwss, hwithin⟩ := hs
    exact ⟨wss, hwss, fun ws hws => (hwithin ws hws).append_left [t]⟩
  split at hread
  · next hvoid =>
    cases hread
    obtain ⟨_, _, -, hvoid⟩ := bind_eq_ok.mp hvoid
    obtain ⟨_, _, -, hvoid⟩ := bind_eq_ok.mp hvoid
    cases hvoid
    exact ⟨[], rfl, nofun⟩
  · obtain ⟨_, r, hsep, hread⟩ := bind_eq_ok.mp hread
    obtain ⟨_, _, hclose, hread⟩ := bind_eq_ok.mp hread
    cases hread
    obtain ⟨u, rfl, hu⟩ := exists_of_token hclose
    obtain ⟨a, r, hopt, hsep⟩ := bind_eq_ok.mp hsep
    rcases cases_of_optional hopt with ⟨P, rfl, hP⟩ | ⟨rfl, -, -⟩
    · obtain ⟨Ps, _, hm, hsep⟩ := bind_eq_ok.mp hsep
      cases hsep
      obtain ⟨hstop, wss, hwss, hwithin⟩ := exists_of_many_params hm hu
      obtain ⟨before, hr⟩ := keeps_param p _ _ _ hP
      obtain ⟨ws, after, rfl, htext, hparam, hafter⟩ := exists_of_param hP hstop
      refine ⟨ws :: wss, ?_, ?_⟩
      · rw [List.map_cons, List.map_cons, htext, hwss]
      · intro vs hvs
        rcases List.mem_cons.mp hvs with rfl | hvs
        · exact ⟨hparam, [], after, rfl, hafter⟩
        · rw [← hr]
          exact (hwithin vs hvs).append_left before
    · cases hsep
      exact ⟨[], rfl, nofun⟩

/-- The parts of a function as they are written, and the tokens `ts` that they come from. -/
structure Parts (p : Preprocessed) (ts : List Lexeme) (f : Function) (type : List Lexeme)
    (params : List (List Lexeme)) (body : List Lexeme) : Prop where
  type_text : f.signature.returnType.text = sourceOf p type
  isType : IsType (kinds type)
  type_within : ∃ before t after, ts = before ++ (type ++ t :: after) ∧ isWord t.token = true
  params_text : f.signature.params.map Param.text = params.map (sourceOf p)
  params_within : ∀ ws ∈ params, ParamWithin ts ws
  body_text : f.body = sourceOf p body
  isBody : IsGroup .leftBrace .rightBrace (kinds body)
  body_within : ∃ before after, ts = before ++ (body ++ after)

theorem Parts.append_left {f : Function} {type body : List Lexeme} {params : List (List Lexeme)}
    (h : Parts p ts f type params body) (us : List Lexeme) :
    Parts p (us ++ ts) f type params body := by
  obtain ⟨before, t, after, hts, ht⟩ := h.type_within
  obtain ⟨before', after', hts'⟩ := h.body_within
  refine { h with
    type_within := ⟨us ++ before, t, after, ?_, ht⟩
    params_within := fun ws hws => (h.params_within ws hws).append_left us
    body_within := ⟨us ++ before', after', ?_⟩ }
  · rw [List.append_assoc, ← hts]
  · rw [List.append_assoc, ← hts']

theorem keeps_storageClass : Keeps storageClass :=
  (shrinks_accept _).keeps.bind fun _ => keeps_pure _

/-- **What is read as a function has such parts.** -/
theorem exists_parts {f : Function} (h : Grammar.function p ts = .ok (.function f, rest)) :
    ∃ type params body, Parts p ts f type params body := by
  obtain ⟨s, r, hs, h⟩ := bind_eq_ok.mp h
  rcases or_of_orElse h with h | h
  · obtain ⟨span, _, hspan, h⟩ := bind_eq_ok.mp h
    cases h
    obtain ⟨body, rfl, rfl, hbody⟩ := exists_of_group hspan
    obtain ⟨attributes, s₁, hattributes, hs⟩ := bind_eq_ok.mp hs
    obtain ⟨storage, s₂, hstorage, hs⟩ := bind_eq_ok.mp hs
    obtain ⟨T, s₃, hT, hs⟩ := bind_eq_ok.mp hs
    obtain ⟨⟨n, span⟩, s₄, hn, hs⟩ := bind_eq_ok.mp hs
    obtain ⟨Ps, s₅, hPs, hs⟩ := bind_eq_ok.mp hs
    obtain ⟨a, s₆, ha, hs⟩ := bind_eq_ok.mp hs
    cases hs
    obtain ⟨attributes, rfl⟩ := (shrinks_balanced _ _).keeps.many _ _ _ hattributes
    obtain ⟨storage, rfl⟩ := keeps_storageClass.many _ _ _ hstorage
    obtain ⟨const, type, rfl, htext, htype, -⟩ := exists_of_typeName hT
    obtain ⟨t, rfl, ht, -⟩ := exists_of_name hn
    obtain ⟨wss, hwss, hwithin⟩ := exists_of_params hPs
    obtain ⟨parens, rfl⟩ := keeps_params p _ _ _ hPs
    obtain ⟨note, hnote⟩ := keeps_semantic _ _ _ ha
    have hne : body ≠ [] := by
      rintro rfl
      cases hbody.head
    refine ⟨type, wss, body, ⟨htext, htype, ?_, hwss, fun ws hws => ?_, ?_, hbody, ?_⟩⟩
    · exact ⟨attributes ++ (storage ++ const), t, parens ++ s₅, by simp, by rw [ht]; rfl⟩
    · have := (hwithin ws hws).append_left (attributes ++ (storage ++ (const ++ (type ++ [t]))))
      simpa using this
    · rw [sourceOf_eq p hne]
    · rw [← hnote]
      exact ⟨attributes ++ (storage ++ (const ++ (type ++ t :: (parens ++ note)))), rest, by simp⟩
  · obtain ⟨_, _, _, h⟩ := bind_eq_ok.mp h
    cases h

theorem function_of_declaration {f : Function} (h : declaration p ts = .ok (.function f, rest)) :
    Grammar.function p ts = .ok (.function f, rest) := by
  rcases or_of_orElse h with h | h
  · obtain ⟨n, _, hd, -⟩ := skips_of_struct h
    cases hd
  rcases or_of_orElse h with h | h
  · obtain ⟨n, hd⟩ := exists_of_buffer h
    cases hd
  rcases or_of_orElse h with h | h
  · obtain ⟨n, _, hd, -⟩ := skips_of_typedef h
    cases hd
  rcases or_of_orElse h with h | h
  · exact h
  rcases or_of_orElse h with h | h
  · obtain ⟨_, hd, -⟩ := skips_of_global h
    cases hd
  · obtain ⟨_, _, -, h⟩ := bind_eq_ok.mp h
    cases h

/-- A function among the declarations of a text has such parts. -/
theorem exists_parts_of_mem_functions {ds : List Decl} {f : Function}
    (h : declarations p ts = .ok ds) (hf : f ∈ functions ds) :
    ∃ type params body, Parts p ts f type params body := by
  fun_induction declarations p ts generalizing ds with
  | case1 =>
    cases h
    cases hf
  | case2 ts hend d rest hd ih =>
    cases hr : declarations p rest with
    | error e =>
      rw [hr] at h
      cases h
    | ok ds' =>
      rw [hr] at h
      cases h
      obtain ⟨before, rfl⟩ := (shrinks_declaration p _ _ _ hd).1
      obtain ⟨d', hd', hf'⟩ := List.mem_filterMap.mp hf
      rcases List.mem_cons.mp hd' with rfl | hd'
      · cases d' <;> cases hf'
        exact exists_parts (function_of_declaration hd)
      · obtain ⟨type, params, body, hparts⟩ := ih hr (List.mem_filterMap.mpr ⟨d', hd', hf'⟩)
        exact ⟨type, params, body, hparts.append_left before⟩
  | case3 => cases h

/-! ### Functions that are read again -/

/-- A parameter starts with a word. -/
theorem isWord_of_param {P : Param} {u : Lexeme} (h : param p (u :: us) = .ok (P, rest)) :
    isWord u.token = true := by
  obtain ⟨start, _, hget, h⟩ := bind_eq_ok.mp h
  cases hget
  obtain ⟨ms, s₁, hms, h⟩ := bind_eq_ok.mp h
  obtain ⟨T, s₂, hT, -⟩ := bind_eq_ok.mp h
  obtain ⟨mw, hmw⟩ := keeps_modifier.many _ _ _ hms
  rw [← hmw] at hms
  have hwords := isWord_of_many_modifier hms
  obtain ⟨pre, tw, rfl, -, htype, hpre⟩ := exists_of_typeName hT
  cases mw with
  | cons w mw =>
    obtain ⟨rfl, -⟩ := List.cons.inj hmw
    exact hwords w (List.mem_cons_self ..)
  | nil =>
    rcases hpre with ⟨-, rfl⟩ | ⟨-, hpre⟩
    · obtain ⟨k, hk, hk'⟩ := htype.head
      obtain ⟨w, tw, rfl⟩ := List.exists_cons_of_ne_nil fun hnil =>
        htype.ne_nil (congrArg kinds hnil)
      obtain ⟨rfl, -⟩ := List.cons.inj hmw
      cases hk
      rcases hk' with hk' | ⟨n, hk'⟩
      · rw [hk']
        rfl
      · rw [hk']
        rfl
    · obtain ⟨c, _, rfl, hc, -⟩ := kinds_eq_cons hpre
      obtain ⟨rfl, -⟩ := List.cons.inj hmw
      rw [hc]
      rfl

theorem params_of_someParams {l : Lexeme} {Ps : List Param} {e : Fault}
    (hl : l.token = .symbol .leftParen) (hvoid : voidParams us = .error e)
    (h : someParams p us = .ok (Ps, rest)) : params p (l :: us) = .ok (Ps, rest) := by
  rw [params, bind_of_ok (symbol_of_eq hl)]
  simp only [hvoid, h]

/-- No parameters are read again. -/
theorem params_nil {l u : Lexeme} (hl : l.token = .symbol .leftParen)
    (hu : u.token = .symbol .rightParen) : params p (l :: u :: us) = .ok ([], us) := by
  have hvoid : voidParams (u :: us) = .error (unexpected (u :: us)) := by
    refine bind_of_error (accept_of_none ?_)
    rintro t ⟨⟩
    rw [hu]
    rfl
  have hsep : sepBy (symbol .comma) (param p) (u :: us) = .ok ([], u :: us) := by
    cases hparam : param p (u :: us) with
    | ok x =>
      have hword := isWord_of_param hparam
      rw [hu] at hword
      cases hword
    | error e =>
      rw [sepBy, bind_of_ok (optional_of_error hparam)]
      rfl
  refine params_of_someParams hl hvoid ?_
  rw [someParams, bind_of_ok hsep, bind_of_ok (symbol_of_eq hu)]
  rfl

/-- Where a parameter stands, there is no lone `void` in parentheses. -/
theorem exists_voidParams_eq_error {c : Lexeme} {ws : List Lexeme} (h : IsParam (kinds ws))
    (hc : c.token = .symbol .colon) (more : List Lexeme) :
    ∃ e, voidParams (ws ++ c :: more) = .error e := by
  cases hvoid : voidParams (ws ++ c :: more) with
  | error e => exact ⟨e, rfl⟩
  | ok x =>
    obtain ⟨⟨_, _⟩, r, hw, hrest⟩ := bind_eq_ok.mp hvoid
    obtain ⟨_, _, hclose, -⟩ := bind_eq_ok.mp hrest
    obtain ⟨w, hw', -⟩ := exists_of_accept hw
    obtain ⟨v, rfl, hv⟩ := exists_of_token hclose
    -- The second token would be the parenthesis.
    match ws, h, hw' with
    | [], h, _ => exact absurd rfl h.ne_nil
    | [w'], _, hw' =>
      cases hw'
      rw [hc] at hv
      cases hv
    | w' :: v' :: ws, h, hw' =>
      cases hw'
      exact absurd hv (h.second_ne rfl)

/-- Parameters are read again, one after the other. -/
theorem params_cons {l c s u : Lexeme} {ws more : List Lexeme} {n : String} {Ps : List Param}
    (hl : l.token = .symbol .leftParen) (h : IsParam (kinds ws)) (hc : c.token = .symbol .colon)
    (hs : s.token = .name n) (hn : n ∉ placements)
    (hmore : ∀ t ∈ more.head?, t.token = .symbol .comma ∨ t.token = .symbol .rightParen)
    (hu : u.token = .symbol .rightParen)
    (hPs : many (do symbol .comma; param p) more = .ok (Ps, u :: us)) :
    ∃ P, params p (l :: (ws ++ c :: s :: more)) = .ok (P :: Ps, us) ∧ P.text = sourceOf p ws := by
  obtain ⟨P, hP, htext⟩ := h.reads p hc hs hn hmore
  refine ⟨P, ?_, htext⟩
  obtain ⟨e, hvoid⟩ := exists_voidParams_eq_error h hc (s :: more)
  have hsep : sepBy (symbol .comma) (param p) (ws ++ c :: s :: more) = .ok (P :: Ps, u :: us) := by
    rw [sepBy, bind_of_ok (optional_of_ok hP)]
    exact (bind_of_ok hPs).trans rfl
  refine params_of_someParams hl hvoid ?_
  rw [someParams, bind_of_ok hsep, bind_of_ok (symbol_of_eq hu)]
  rfl

/-- One more parameter is read again behind a comma. -/
theorem many_params_cons {k c s : Lexeme} {ws more : List Lexeme} {n : String} {Ps : List Param}
    (hk : k.token = .symbol .comma) (h : IsParam (kinds ws)) (hc : c.token = .symbol .colon)
    (hs : s.token = .name n) (hn : n ∉ placements)
    (hmore : ∀ t ∈ more.head?, t.token = .symbol .comma ∨ t.token = .symbol .rightParen)
    (hPs : many (do symbol .comma; param p) more = .ok (Ps, us)) :
    ∃ P, many (do symbol .comma; param p) (k :: (ws ++ c :: s :: more)) = .ok (P :: Ps, us) ∧
      P.text = sourceOf p ws := by
  obtain ⟨P, hP, htext⟩ := h.reads p hc hs hn hmore
  refine ⟨P, many_of_ok ((bind_of_ok (symbol_of_eq hk)).trans hP) ?_ hPs, htext⟩
  simp only [List.length_cons, List.length_append]
  omega

theorem many_params_nil {u : Lexeme} (hu : u.token = .symbol .rightParen) :
    many (do symbol .comma; param p) (u :: us) = .ok ([], u :: us) := by
  refine many_of_error (bind_of_error (symbol_of_ne ?_))
  rintro t ⟨⟩
  rw [hu]
  nofun

/-- A type starts with a word that starts nothing else, or a `const` stands in front of it. -/
theorem token_ne_of_isType {pre type : List Lexeme}
    (hpre : kinds pre = [] ∨ kinds pre = [.keyword .const]) (htype : IsType (kinds type))
    {k : Token} (hconst : k ≠ .keyword .const) (hunsigned : k ≠ .keyword .unsigned)
    (hname : k.name? = none) : ∀ u ∈ (pre ++ (type ++ us)).head?, u.token ≠ k := by
  rintro u hu rfl
  rcases hpre with hpre | hpre
  · cases kinds_eq_nil hpre
    obtain ⟨k, hk, hk'⟩ := htype.head
    obtain ⟨w, type, rfl⟩ := List.exists_cons_of_ne_nil fun hnil =>
      htype.ne_nil (congrArg kinds hnil)
    cases hu
    cases hk
    rcases hk' with hk' | ⟨n, hk'⟩
    · exact hunsigned hk'
    · rw [hk'] at hname
      cases hname
  · obtain ⟨w, _, rfl, hw, -⟩ := kinds_eq_cons hpre
    cases hu
    exact hconst hw

theorem typeName_of_parts {pre type : List Lexeme}
    (hpre : kinds pre = [] ∨ kinds pre = [.keyword .const]) (htype : IsType (kinds type))
    (hus : ∀ u ∈ us.head?, u.token ≠ .symbol .leftAngle) :
    typeName p (pre ++ (type ++ us)) = .ok (⟨sourceOf p type, !pre.isEmpty⟩, us) := by
  rcases hpre with hpre | hpre
  · cases kinds_eq_nil hpre
    exact typeName_of_isType p [] htype (htype.optional_const us) hus
  · obtain ⟨w, more, rfl, hw, hmore⟩ := kinds_eq_cons hpre
    cases kinds_eq_nil hmore
    have hconst : Parser.optional (keyword .const) ([w] ++ (type ++ us)) =
        .ok (some (), type ++ us) := optional_of_ok (token_of_eq hw)
    exact typeName_of_isType p [w] htype hconst hus

/-- What stands in front of the body is read again from the type and the parameters. -/
theorem signature_of_parts {pre type rest after : List Lexeme} {t c s : Lexeme} {n m : String}
    {Ps : List Param} (hpre : kinds pre = [] ∨ kinds pre = [.keyword .const])
    (htype : IsType (kinds type)) (ht : t.token = .name n)
    (hparams : params p rest = .ok (Ps, c :: s :: after)) (hc : c.token = .symbol .colon)
    (hs : s.token = .name m) (hm : m ∉ placements)
    (hafter : ∀ u ∈ after.head?, u.token ≠ .symbol .colon) :
    ∃ S, signature p (pre ++ (type ++ t :: rest)) = .ok (S, after) ∧ S.name = n ∧
      S.returnType = ⟨sourceOf p type, !pre.isEmpty⟩ ∧ S.params = Ps := by
  have hne : ∀ k : Token, k ≠ .keyword .const → k ≠ .keyword .unsigned → k.name? = none →
      ∀ u ∈ (pre ++ (type ++ t :: rest)).head?, u.token ≠ k :=
    fun k hconst hunsigned hname => token_ne_of_isType hpre htype hconst hunsigned hname
  have hattributes : many (balanced .leftSquare .rightSquare) (pre ++ (type ++ t :: rest)) =
      .ok ([], pre ++ (type ++ t :: rest)) :=
    many_of_error (balanced_of_ne (hne _ (by decide) (by decide) rfl))
  have hstorage : many storageClass (pre ++ (type ++ t :: rest)) =
      .ok ([], pre ++ (type ++ t :: rest)) := by
    refine many_of_error (bind_of_error (accept_of_none fun u hu => if_neg ?_))
    rintro (h | h | h)
    · exact hne (.keyword .inlined) (by decide) (by decide) rfl u hu h
    · exact hne (.keyword .static) (by decide) (by decide) rfl u hu h
    · exact hne (.keyword .external) (by decide) (by decide) rfl u hu h
  have hangle : ∀ u ∈ (t :: rest).head?, u.token ≠ .symbol .leftAngle := by
    rintro u ⟨⟩
    rw [ht]
    nofun
  have hT := typeName_of_parts (p := p) hpre htype hangle
  have hsemantic := semantic_cons hc hs hm hafter
  exact ⟨_, bind_eq_ok.mpr ⟨_, _, hattributes, bind_eq_ok.mpr ⟨_, _, hstorage,
    bind_eq_ok.mpr ⟨_, _, hT, bind_eq_ok.mpr ⟨_, _, name_cons ht _,
      bind_eq_ok.mpr ⟨_, _, hparams, bind_eq_ok.mpr ⟨_, _, hsemantic, rfl⟩⟩⟩⟩⟩⟩, rfl, rfl, rfl⟩

/-- Tokens that are read as a function are one, if they start no other declaration. -/
theorem declaration_of_function {d : Decl} (h : Grammar.function p ts = .ok (d, us))
    (hne : ∀ k ∈ [Keyword.struct, .constantBuffer, .textureBuffer, .typedef],
      ∀ u ∈ ts.head?, u.token ≠ .keyword k) : declaration p ts = .ok (d, us) := by
  obtain ⟨e, hbuffer⟩ : ∃ e, orElse (keyword .constantBuffer) (keyword .textureBuffer) ts =
      .error e :=
    orElse_of_errors (token_of_ne (hne _ (by simp))) (token_of_ne (hne _ (by simp)))
  refine orElse_of_error (bind_of_error (token_of_ne (hne .struct (by simp)))) ?_
  refine orElse_of_error (bind_of_error hbuffer) ?_
  refine orElse_of_error (e := unexpected ts) ?_ (orElse_of_ok h)
  exact (bind_of_ok rfl).trans (bind_of_error (token_of_ne (hne .typedef (by simp))))

/-- **A function is read again** from its type, its parameters and its body. -/
theorem declaration_of_parts {pre type rest body : List Lexeme} {t c s : Lexeme} {n m : String}
    {Ps : List Param} (hpre : kinds pre = [] ∨ kinds pre = [.keyword .const])
    (htype : IsType (kinds type)) (ht : t.token = .name n)
    (hparams : params p rest = .ok (Ps, c :: s :: (body ++ us)))
    (hc : c.token = .symbol .colon) (hs : s.token = .name m) (hm : m ∉ placements)
    (hbody : IsGroup .leftBrace .rightBrace (kinds body)) :
    ∃ f, declaration p (pre ++ (type ++ t :: rest)) = .ok (.function f, us) ∧
      f.signature.name = n ∧
      f.signature.returnType = ⟨sourceOf p type, !pre.isEmpty⟩ ∧ f.signature.params = Ps ∧
      f.body = sourceOf p body := by
  have hne_nil : body ≠ [] := by
    rintro rfl
    cases hbody.head
  have hbrace : ∀ u ∈ (body ++ us).head?, u.token ≠ .symbol .colon := by
    intro u hu
    have hhead := hbody.head
    obtain ⟨w, body, rfl⟩ := List.exists_cons_of_ne_nil hne_nil
    cases hu
    rw [Option.some.inj hhead]
    nofun
  obtain ⟨S, hS, hname, hreturn, hPs⟩ := signature_of_parts hpre htype ht hparams hc hs hm hbrace
  have hrest : functionRest p S (body ++ us) =
      .ok (.function ⟨S, p.sourceText (spanOf body), spanOf body⟩, us) := by
    refine orElse_of_ok ?_
    rw [bind_of_ok (hbody.reads body us rfl)]
    rfl
  have hfunction : Grammar.function p (pre ++ (type ++ t :: rest)) =
      .ok (.function ⟨S, p.sourceText (spanOf body), spanOf body⟩, us) := by
    rw [Grammar.function, bind_of_ok hS, hrest]
  refine ⟨_, declaration_of_function hfunction fun k hk => ?_, hname, hreturn, hPs,
    (sourceOf_eq p hne_nil).symm⟩
  refine token_ne_of_isType hpre htype ?_ ?_ rfl
  · rintro ⟨⟩
    exact absurd hk (by decide)
  · rintro ⟨⟩
    exact absurd hk (by decide)

end Functions

end PixelWrap.Decl
