import PixelWrap.Proofs.Outline

/-!
# Declarations tile the tokens

The declarations of a text are read one after the other, each from where the one before it
stopped.  So the tokens are cut into slices, one for each declaration, and since no parser
reads over the mark at the end of the text, the slices are together what stands in front of
that mark.  Each slice takes up a token at least, which is also why reading ends.

## Main definitions

* `Decl.Leaves`: what is left of the tokens starts in front of their end.
* `Decl.Parser.StaysInside`: a parser does not read over the end of the text.
* `Decl.Tiles`: declarations with their slices, which are together the tokens of a text.
* `Decl.Grammar.alternatives`: the ways to read a declaration.

## Main results

* `Decl.Grammar.staysInside_declaration`: no declaration goes beyond the end of the text.
* `Decl.outline_iff_tiles`: reading declarations one after the other gives such slices.
* `Decl.parse_tiles`: **a text is read exactly if its tokens can be tiled**, and reading
  ends.
-/

namespace PixelWrap.Decl

/-! ### Parsers that stay in front of the end -/

/-- `r` is what is left of the tokens `ts`, and the end of the text is not among those that
are missing. -/
def Leaves (ts r : List Lexeme) : Prop := ∃ us, ts = us ++ r ∧ ∀ t ∈ us, t.token ≠ .eof

section Leaves

variable {ts r s : List Lexeme} {t : Lexeme}

theorem Leaves.refl (ts : List Lexeme) : Leaves ts ts := ⟨[], rfl, nofun⟩

theorem Leaves.cons (ht : t.token ≠ .eof) (h : Leaves ts r) : Leaves (t :: ts) r := by
  obtain ⟨us, rfl, hus⟩ := h
  exact ⟨t :: us, rfl, List.forall_mem_cons.mpr ⟨ht, hus⟩⟩

theorem Leaves.trans (h : Leaves ts s) (h' : Leaves s r) : Leaves ts r := by
  obtain ⟨us, rfl, hus⟩ := h
  obtain ⟨vs, rfl, hvs⟩ := h'
  refine ⟨us ++ vs, (List.append_assoc ..).symm, ?_⟩
  intro t ht
  rcases List.mem_append.mp ht with ht | ht
  · exact hus t ht
  · exact hvs t ht

end Leaves

namespace Parser

variable {α β : Type}

/-- Whatever the parser reads, it does not read over the end of the text. -/
def StaysInside (p : Parser α) : Prop := ∀ ts a r, p ts = .ok (a, r) → Leaves ts r

theorem staysInside_pure (a : α) : StaysInside (pure a : Parser α) := by
  intro ts b r h
  cases h
  exact .refl _

theorem staysInside_get : StaysInside (get : Parser (List Lexeme)) := by
  intro ts a r h
  cases h
  exact .refl _

theorem staysInside_failAt (reason : Reason) (ts : List Lexeme) :
    StaysInside (failAt reason ts : Parser α) := by
  intro _ _ _ h
  cases h

theorem StaysInside.bind {p : Parser α} {f : α → Parser β} (hp : StaysInside p)
    (hf : ∀ a, StaysInside (f a)) : StaysInside (p >>= f) := by
  intro ts b r h
  obtain ⟨a, s, h₁, h₂⟩ := bind_eq_ok.mp h
  exact (hp _ _ _ h₁).trans (hf a _ _ _ h₂)

theorem staysInside_accept {f : Token → Option α} (hf : f .eof = none) :
    StaysInside (accept f) := by
  intro ts a r h
  obtain ⟨t, rfl, ht⟩ := exists_of_accept h
  refine .cons ?_ (.refl _)
  intro heof
  rw [heof, hf] at ht
  cases ht

theorem staysInside_token {k : Token} (hk : k ≠ .eof) : StaysInside (token k) :=
  (staysInside_accept (if_neg hk.symm)).bind fun _ => staysInside_pure _

theorem staysInside_symbol (s : Symbol) : StaysInside (symbol s) := staysInside_token nofun

theorem staysInside_keyword (k : Keyword) : StaysInside (keyword k) := staysInside_token nofun

theorem staysInside_name : StaysInside name := staysInside_accept rfl

theorem StaysInside.optional {p : Parser α} (hp : StaysInside p) : StaysInside (optional p) := by
  intro ts a r h
  unfold Parser.optional at h
  split at h
  · next ht =>
    cases h
    exact hp _ _ _ ht
  · cases h
    exact .refl _

theorem StaysInside.many {p : Parser α} (hp : StaysInside p) : StaysInside (many p) := by
  intro ts a r h
  fun_induction Parser.many p ts generalizing a r with
  | case1 =>
    cases h
    exact .refl _
  | case2 ts b s hs _ ih =>
    cases hm : Parser.many p s with
    | error e =>
      rw [hm] at h
      cases h
    | ok x =>
      rw [hm] at h
      cases h
      exact (hp _ _ _ hs).trans (ih _ _ hm)
  | case3 =>
    cases h
    exact .refl _

theorem StaysInside.sepBy {sep : Parser Unit} {p : Parser α} (hs : StaysInside sep)
    (hp : StaysInside p) : StaysInside (sepBy sep p) := by
  refine hp.optional.bind fun a => ?_
  cases a with
  | none => exact staysInside_pure _
  | some a => exact (hs.bind fun _ => hp).many.bind fun _ => staysInside_pure _

theorem StaysInside.orElse {p q : Parser α} (hp : StaysInside p) (hq : StaysInside q) :
    StaysInside (orElse p q) := by
  intro ts a r h
  rcases or_of_orElse h with h | h
  · exact hp _ _ _ h
  · exact hq _ _ _ h

/-- A bracket is not the end of the text, and any other token is compared with it. -/
theorem leaves_of_closing? {opening close : Symbol} {depth : Nat} {ts r : List Lexeme} {s : Span}
    (h : closing? opening close depth ts = some (s, r)) : Leaves ts r := by
  fun_induction closing? opening close depth ts with
  | case1 => cases h
  | case2 depth t ts ho ih => exact .cons (by simp [ho]) (ih h)
  | case3 t ts _ hc =>
    cases h
    exact .cons (by simp [hc]) (.refl _)
  | case4 t ts _ hc d ih => exact .cons (by simp [hc]) (ih h)
  | case5 => cases h
  | case6 depth t ts _ _ he ih => exact .cons he (ih h)

theorem staysInside_balanced (opening close : Symbol) : StaysInside (balanced opening close) := by
  intro ts a r h
  unfold balanced at h
  split at h
  · cases h
  · split at h
    · next ht =>
      split at h
      · next hc =>
        cases h
        exact .cons (by simp [ht]) (leaves_of_closing? hc)
      · cases h
    · cases h

theorem leaves_of_splitUntil {stops : Token → Bool} {depth : Nat} {ts a r : List Lexeme}
    (h : splitUntil stops depth ts = .ok (a, r)) : Leaves ts r := by
  have step : ∀ {x : Except (Option (List Lexeme)) (List Lexeme × List Lexeme)} {t ts a r},
      t.token ≠ .eof → (∀ a r, x = .ok (a, r) → Leaves ts r) →
      (x.map fun y => (t :: y.1, y.2)) = .ok (a, r) → Leaves (t :: ts) r := by
    intro x t ts a r ht ih h
    cases x with
    | error e => cases h
    | ok y =>
      cases h
      exact .cons ht (ih _ _ rfl)
  fun_induction splitUntil stops depth ts generalizing a r with
  | case1 => cases h
  | case2 =>
    cases h
    exact .refl _
  | case3 => cases h
  | case4 depth t ts _ ht _ ih => exact step ht (fun _ _ => ih) h
  | case5 => cases h
  | case6 t ts ht _ _ d _ ih => exact step ht (fun _ _ => ih) h
  | case7 depth t ts _ ht _ _ ih => exact step ht (fun _ _ => ih) h

theorem staysInside_scanUntil (stops : Token → Bool) : StaysInside (scanUntil stops) := by
  intro ts a r h
  unfold scanUntil at h
  split at h
  · next ht =>
    cases h
    exact leaves_of_splitUntil ht
  · cases h
  · cases h

end Parser

/-! ### Declarations -/

namespace Grammar

open PixelWrap.Decl.Parser

variable (p : Preprocessed)

theorem staysInside_typeName : StaysInside (typeName p) := by
  have hqualifier : StaysInside typeQualifier :=
    (staysInside_accept rfl).bind fun _ => staysInside_pure _
  exact (staysInside_keyword _).optional.bind fun _ => staysInside_get.bind fun _ =>
    hqualifier.many.bind fun _ => (staysInside_keyword _).optional.bind fun _ =>
      staysInside_name.bind fun _ => (staysInside_balanced _ _).optional.bind fun _ =>
        staysInside_get.bind fun _ => staysInside_pure _

/-- A modifier is one token, and the end of the text is none. -/
theorem staysInside_modifier : StaysInside modifier := by
  intro ts m r h
  unfold modifier at h
  split at h
  · cases h
  · next t us =>
    have ht : t.token ≠ .eof := by
      intro ht
      simp only [ht] at h
      cases h
    have hr : us = r := by
      repeat' split at h
      all_goals
        cases h
        try rfl
    rw [← hr]
    exact .cons ht (.refl _)

theorem staysInside_semantic : StaysInside semantic := by
  have hbinding : StaysInside binding := by
    refine (staysInside_symbol _).bind fun _ => staysInside_name.bind fun n => ?_
    show StaysInside (if n.1 ∈ placements then _ else _)
    split
    · exact (staysInside_balanced _ _).bind fun _ => staysInside_pure _
    · exact staysInside_pure _
  exact hbinding.many.bind fun _ => staysInside_pure _

theorem staysInside_param : StaysInside (param p) := by
  have hvalue : StaysInside defaultValue :=
    (staysInside_symbol _).bind fun _ => staysInside_scanUntil _
  exact staysInside_get.bind fun _ => staysInside_modifier.many.bind fun _ =>
    (staysInside_typeName p).bind fun _ => staysInside_name.bind fun _ =>
      (staysInside_balanced _ _).many.bind fun _ => staysInside_get.bind fun _ =>
        staysInside_semantic.bind fun _ => hvalue.optional.bind fun _ => staysInside_pure _

theorem staysInside_params : StaysInside (params p) := by
  have hvoid : StaysInside voidParams :=
    (staysInside_accept rfl).bind fun _ => (staysInside_symbol _).bind fun _ => staysInside_pure _
  have hsome : StaysInside (someParams p) :=
    ((staysInside_symbol _).sepBy (staysInside_param p)).bind fun _ =>
      (staysInside_symbol _).bind fun _ => staysInside_pure _
  refine (staysInside_symbol _).bind fun _ => ?_
  intro ts a r h
  simp only at h
  split at h
  · next ht =>
    cases h
    exact hvoid _ _ _ ht
  · exact hsome _ _ _ h

theorem staysInside_function : StaysInside (function p) := by
  have hstorage : StaysInside storageClass :=
    (staysInside_accept rfl).bind fun _ => staysInside_pure _
  have hsignature : StaysInside (signature p) :=
    (staysInside_balanced _ _).many.bind fun _ => hstorage.many.bind fun _ =>
      (staysInside_typeName p).bind fun _ => staysInside_name.bind fun _ =>
        (staysInside_params p).bind fun _ => staysInside_semantic.bind fun _ =>
          staysInside_pure _
  exact hsignature.bind fun _ =>
    ((staysInside_balanced _ _).bind fun _ => staysInside_pure _).orElse
      ((staysInside_symbol _).bind fun _ => staysInside_pure _)

theorem staysInside_struct : StaysInside struct :=
  (staysInside_keyword _).bind fun _ => staysInside_name.bind fun _ =>
    (staysInside_balanced _ _).bind fun _ => (staysInside_scanUntil _).bind fun _ =>
      (staysInside_symbol _).bind fun _ => staysInside_pure _

theorem staysInside_buffer : StaysInside buffer := by
  have hnote : StaysInside (do symbol .colon; scanUntil (· == .symbol .leftBrace)) :=
    (staysInside_symbol _).bind fun _ => staysInside_scanUntil _
  exact ((staysInside_keyword _).orElse (staysInside_keyword _)).bind fun _ =>
    staysInside_name.bind fun _ => hnote.optional.bind fun _ =>
      (staysInside_balanced _ _).bind fun _ => (staysInside_symbol _).optional.bind fun _ =>
        staysInside_pure _

theorem staysInside_typedef : StaysInside typedef := by
  refine staysInside_get.bind fun _ => (staysInside_keyword _).bind fun _ =>
    (staysInside_scanUntil _).bind fun ts => (staysInside_symbol _).bind fun _ => ?_
  cases ts.reverse.findSome? (·.token.name?) with
  | some n => exact staysInside_pure _
  | none => exact staysInside_failAt _ _

theorem staysInside_global : StaysInside global := by
  refine staysInside_get.bind fun _ => (staysInside_scanUntil _).bind fun ts => ?_
  show StaysInside (if ts.isEmpty || hasFunctionBody 0 ts then _ else _)
  split
  · exact staysInside_failAt _ _
  · exact (staysInside_symbol _).bind fun _ => staysInside_pure _

/-- **No declaration goes beyond the end of the text.** -/
theorem staysInside_declaration : StaysInside (declaration p) :=
  staysInside_struct.orElse (staysInside_buffer.orElse (staysInside_typedef.orElse
    ((staysInside_function p).orElse (staysInside_global.orElse
      ((staysInside_symbol _).bind fun _ => staysInside_pure _)))))

/-- The ways to read a declaration, in the order in which they are tried. -/
def alternatives : List (Parser Decl) := [struct, buffer, typedef, function p, global, empty]

/-- A declaration is read in one of these ways. -/
theorem exists_alternative {ts : List Lexeme} {x : Decl × List Lexeme}
    (h : declaration p ts = .ok x) : ∃ q ∈ alternatives p, q ts = .ok x := by
  rcases or_of_orElse h with h | h
  · exact ⟨struct, by simp [alternatives], h⟩
  rcases or_of_orElse h with h | h
  · exact ⟨buffer, by simp [alternatives], h⟩
  rcases or_of_orElse h with h | h
  · exact ⟨typedef, by simp [alternatives], h⟩
  rcases or_of_orElse h with h | h
  · exact ⟨function p, by simp [alternatives], h⟩
  rcases or_of_orElse h with h | h
  · exact ⟨global, by simp [alternatives], h⟩
  · exact ⟨empty, by simp [alternatives], h⟩

/-- **Each of them takes up at least one token.** -/
theorem shrinks_of_mem_alternatives {q : Parser Decl} (h : q ∈ alternatives p) : Shrinks q := by
  simp only [alternatives, List.mem_cons, List.not_mem_nil, or_false] at h
  rcases h with rfl | rfl | rfl | rfl | rfl | rfl
  · exact shrinks_struct
  · exact shrinks_buffer
  · exact shrinks_typedef
  · exact shrinks_function p
  · exact shrinks_global
  · exact (shrinks_token _).bind fun _ => keeps_pure _

/-- Reading one declaration after the other cannot go on for ever. -/
theorem wellFounded_declaration :
    WellFounded fun rest ts => ∃ d, declaration p ts = .ok (d, rest) := by
  refine Subrelation.wf ?_ (measure List.length).wf
  rintro rest ts ⟨d, hd⟩
  exact (shrinks_declaration p _ _ _ hd).2

end Grammar

/-! ### Slices -/

open PixelWrap.Decl.Parser Grammar

/-- The tokens in front of the first mark of an end of the text. -/
def beforeEnd (ts : List Lexeme) : List Lexeme := ts.takeWhile (·.token != .eof)

/-- The tokens from the first mark of an end of the text on. -/
def fromEnd (ts : List Lexeme) : List Lexeme := ts.dropWhile (·.token != .eof)

/-- Each declaration has a slice of the tokens, and the slices one after the other are what
stands in front of the end.  A slice is not empty, and from its start on the declaration is
read up to the end of the slice. -/
structure Tiles (p : Preprocessed) (ts : List Lexeme) (roots : List (Decl × List Lexeme)) :
    Prop where
  cover : roots.flatMap Prod.snd = beforeEnd ts
  slice : ∀ a d us b, roots = a ++ (d, us) :: b → us ≠ [] ∧
    declaration p (us ++ (b.flatMap Prod.snd ++ fromEnd ts)) =
      .ok (d, b.flatMap Prod.snd ++ fromEnd ts)

section Slices

variable {p : Preprocessed} {ts us : List Lexeme} {roots : List (Decl × List Lexeme)} {d : Decl}

theorem beforeEnd_append_fromEnd (ts : List Lexeme) : beforeEnd ts ++ fromEnd ts = ts :=
  List.takeWhile_append_dropWhile

theorem atEnd_iff : atEnd ts = true ↔ beforeEnd ts = [] := by
  cases ts with
  | nil => simp [atEnd, beforeEnd]
  | cons t ts => by_cases ht : t.token = .eof <;> simp [atEnd, beforeEnd, ht]

/-- Tokens without an end stand in front of it. -/
theorem beforeEnd_append (hus : ∀ t ∈ us, t.token ≠ .eof) (ts : List Lexeme) :
    beforeEnd (us ++ ts) = us ++ beforeEnd ts ∧ fromEnd (us ++ ts) = fromEnd ts := by
  have hall : ∀ t ∈ us, (t.token != .eof) = true := by
    intro t ht
    simpa using hus t ht
  exact ⟨List.takeWhile_append_of_pos hall, List.dropWhile_append_of_pos hall⟩

/-- Tokens in front of the end are not the end. -/
theorem ne_eof_of_mem_beforeEnd {t : Lexeme} (h : t ∈ beforeEnd ts) : t.token ≠ .eof := by
  have := List.mem_takeWhile_imp h
  simpa using this

theorem tiles_nil_iff : Tiles p ts [] ↔ atEnd ts = true := by
  rw [atEnd_iff]
  constructor
  · intro h
    exact h.cover.symm
  · intro h
    refine ⟨h.symm, ?_⟩
    intro a d us b hroots
    cases a <;> cases hroots

/-- The first slice is the one of the first declaration, and the others are the slices of
the tokens behind it. -/
theorem tiles_cons_iff : Tiles p ts ((d, us) :: roots) ↔
    ∃ rest, ts = us ++ rest ∧ us ≠ [] ∧ (∀ t ∈ us, t.token ≠ .eof) ∧
      declaration p ts = .ok (d, rest) ∧ Tiles p rest roots := by
  constructor
  · rintro ⟨hcover, hslice⟩
    rw [List.flatMap_cons] at hcover
    obtain ⟨hne, hread⟩ := hslice [] d us roots rfl
    have hus : ∀ t ∈ us, t.token ≠ .eof := by
      intro t ht
      have hmem : t ∈ beforeEnd ts := by
        rw [← hcover]
        exact List.mem_append_left _ ht
      exact ne_eof_of_mem_beforeEnd hmem
    have hts : ts = us ++ (roots.flatMap Prod.snd ++ fromEnd ts) := by
      rw [← List.append_assoc, hcover, beforeEnd_append_fromEnd]
    obtain ⟨hbefore, hfrom⟩ := beforeEnd_append hus (roots.flatMap Prod.snd ++ fromEnd ts)
    rw [← hts] at hbefore hfrom hread
    refine ⟨_, hts, hne, hus, hread, ?_, ?_⟩
    · exact List.append_cancel_left (hcover.trans hbefore)
    · intro a d' us' b hroots
      rw [← hfrom]
      exact hslice ((d, us) :: a) d' us' b (by rw [hroots]; rfl)
  · rintro ⟨rest, rfl, hne, hus, hread, hcover, hslice⟩
    obtain ⟨hbefore, hfrom⟩ := beforeEnd_append hus rest
    have hrest : roots.flatMap Prod.snd ++ fromEnd rest = rest := by
      rw [hcover, beforeEnd_append_fromEnd]
    refine ⟨by rw [List.flatMap_cons, hcover, hbefore], ?_⟩
    intro a d' us' b hroots
    rw [hfrom]
    cases a with
    | nil =>
      cases hroots
      rw [hrest]
      exact ⟨hne, hread⟩
    | cons x a => exact hslice a d' us' b (List.cons.inj hroots).2

/-- **Reading declarations one after the other gives slices**, and the other way round. -/
theorem outline_iff_tiles : Outline p ts roots ↔ Tiles p ts roots := by
  constructor
  · intro h
    induction h with
    | nil hend => exact tiles_nil_iff.mpr hend
    | @cons ts rest d roots _ hd _ ih =>
      obtain ⟨us, rfl, hus⟩ := staysInside_declaration p _ _ _ hd
      have hlt := (shrinks_declaration p _ _ _ hd).2
      rw [consumed_of_eq_append rfl]
      refine tiles_cons_iff.mpr ⟨rest, rfl, ?_, hus, hd, ih⟩
      rintro rfl
      exact absurd hlt (Nat.lt_irrefl _)
  · intro h
    induction roots generalizing ts with
    | nil => exact .nil (tiles_nil_iff.mp h)
    | cons root roots ih =>
      obtain ⟨d, us⟩ := root
      obtain ⟨rest, hts, hne, hus, hd, hrest⟩ := tiles_cons_iff.mp h
      have hstart : atEnd ts = false := by
        rw [← Bool.not_eq_true, atEnd_iff, hts, (beforeEnd_append hus rest).1]
        intro hnil
        exact hne (List.append_eq_nil_iff.mp hnil).1
      have hcons := Outline.cons hstart hd (ih hrest)
      rwa [consumed_of_eq_append hts] at hcons

theorem declarations_of_parse {ds : List Decl} (h : parse p ts = .ok ds) :
    declarations p ts = .ok ds := by
  rw [parse] at h
  cases hd : declarations p ts with
  | error e =>
    rw [hd] at h
    cases h
  | ok ds' =>
    rw [hd] at h
    cases h
    rfl

end Slices

/-- **A text is read exactly if its tokens can be tiled.**  The tokens in front of the end
are cut into slices, one for each declaration in order, and each declaration is read from
the start of its slice up to its end.  Reading ends whatever the tokens are, since each way
to read a declaration takes up at least one of them and leaves the others. -/
theorem parse_tiles (p : Preprocessed) (ts : List Lexeme) :
    (∀ ds, parse p ts = .ok ds ↔ ∃ roots, Tiles p ts roots ∧ roots.map Prod.fst = ds) ∧
      (∀ d rest, declaration p ts = .ok (d, rest) →
        ∃ q ∈ alternatives p, q ts = .ok (d, rest)) ∧
      (∀ q ∈ alternatives p, Shrinks q) ∧
      WellFounded fun rest ts => ∃ d, declaration p ts = .ok (d, rest) := by
  refine ⟨?_, ?_, ?_, wellFounded_declaration p⟩
  · intro ds
    constructor
    · intro h
      obtain ⟨roots, houtline, hroots⟩ := outline_of_declarations (declarations_of_parse h)
      exact ⟨roots, outline_iff_tiles.mp houtline, hroots⟩
    · rintro ⟨roots, htiles, rfl⟩
      exact parse_of_outline (outline_iff_tiles.mpr htiles)
  · intro d rest h
    exact exists_alternative p h
  · intro q hq
    exact shrinks_of_mem_alternatives p hq

end PixelWrap.Decl
