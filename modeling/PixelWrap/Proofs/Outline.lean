import Mathlib
import PixelWrap.Decl.Grammar

/-!
# Functions that other declarations swallow

Structures, type names and globals skip tokens up to the next semicolon outside all
brackets, so a function that is not read as one can end up inside of one of them.  Only
globals look for a function in what they skip, and they see it only if its body follows
its parameters directly.

## Main definitions

* `Decl.level`: counts open brackets.
* `Decl.HasFunction`: tokens hold parameters, annotations and a body, outside all brackets.
* `Decl.Outline`: the declarations of a text and the tokens of each.
* `Decl.Swallows`: a structure, type name or global covers a function.
* `Decl.Skips`: the tokens that a declaration skips to get to its semicolon.

## Main results

* `Decl.hasFunctionBody_of_hasFunction`: a body right after the parameters is seen.
* `Decl.swallows_iff_of_parse`: a function is swallowed exactly if it is skipped by a
  structure or a type name, or by a global with an annotation in front of the body.
* `Decl.parse_swallows`: all three happen.
-/

namespace PixelWrap.Decl

open PixelWrap.Decl.Parser Grammar

/-! ### Brackets -/

/-- The number of open brackets after the tokens if `n` are open in front of them; `none`
if a bracket closes none that is open. -/
def level : Nat → List Lexeme → Option Nat
  | n, [] => some n
  | n, t :: ts =>
    if opens t.token then level (n + 1) ts
    else if closes t.token then
      if n = 0 then none else level (n - 1) ts
    else level n ts

/-- The tokens are a bracket, tokens whose brackets match, and a bracket. -/
def Enclosed (opening close : Symbol) (ts : List Lexeme) : Prop :=
  ∃ first inner last, ts = first :: (inner ++ [last]) ∧ first.token = .symbol opening ∧
    last.token = .symbol close ∧ level 0 inner = some 0

/-- The tokens are a number of annotations. -/
inductive Annotations : Nat → List Lexeme → Prop
  | nil : Annotations 0 []
  | cons {n : Nat} {ts us : List Lexeme} {s : Option String} :
      binding ts = .ok (s, []) → Annotations n us → Annotations (n + 1) (ts ++ us)

/-- The tokens hold, outside all brackets, the parameters of a function and its body with
`n` annotations in between. -/
def HasFunction (n : Nat) (ts : List Lexeme) : Prop :=
  ∃ before params notes body after, ts = before ++ params ++ notes ++ body ++ after ∧
    level 0 before = some 0 ∧ Enclosed .leftParen .rightParen params ∧ Annotations n notes ∧
    Enclosed .leftBrace .rightBrace body

variable {n m k : Nat} {ts us : List Lexeme} {t : Lexeme}

theorem level_add (h : level n ts = some m) (k : Nat) : level (n + k) ts = some (m + k) := by
  fun_induction level n ts with
  | case1 n =>
    cases h
    rw [level]
  | case2 n t ts ho ih =>
    rw [level, if_pos ho, Nat.add_right_comm]
    exact ih h
  | case3 => cases h
  | case4 n t ts ho hc hn ih =>
    have hk : n - 1 + k = n + k - 1 := by omega
    rw [level, if_neg ho, if_pos hc, if_neg (by omega), ← hk]
    exact ih h
  | case5 n t ts ho hc ih =>
    rw [level, if_neg ho, if_neg hc]
    exact ih h

/-- Reading over tokens in front does not make a function vanish. -/
theorem hasFunctionBody_append (h : level n ts = some m) (hu : hasFunctionBody m us = true) :
    hasFunctionBody n (ts ++ us) = true := by
  fun_induction level n ts with
  | case1 n =>
    cases h
    exact hu
  | case2 n t ts ho ih =>
    rw [List.cons_append, hasFunctionBody, if_pos ho]
    exact ih h
  | case3 => cases h
  | case4 n t ts ho hc hn ih =>
    rw [List.cons_append, hasFunctionBody, if_neg ho, if_pos hc, ih h, Bool.or_true]
  | case5 n t ts ho hc ih =>
    rw [List.cons_append, hasFunctionBody, if_neg ho, if_neg hc]
    exact ih h

/-- **A body right after the parameters is seen.** -/
theorem hasFunctionBody_of_hasFunction (h : HasFunction 0 ts) : hasFunctionBody 0 ts = true := by
  obtain ⟨before, params, notes, body, after, rfl, hb, hp, hn, hbody⟩ := h
  obtain ⟨first, inner, last, rfl, hfirst, hlast, hinner⟩ := hp
  obtain ⟨brace, inside, close, rfl, hbrace, -, -⟩ := hbody
  cases hn
  have hclose : hasFunctionBody (0 + 1) (last :: brace :: (inside ++ [close] ++ after)) = true := by
    simp [hasFunctionBody, hlast, hbrace, opens, closes]
  have hinside := hasFunctionBody_append (level_add hinner 1) hclose
  have hgroup : hasFunctionBody 0
      (first :: (inner ++ last :: brace :: (inside ++ [close] ++ after))) = true := by
    have hopen : opens first.token = true := by
      rw [hfirst]
      rfl
    rw [hasFunctionBody, if_pos hopen]
    exact hinside
  simpa using hasFunctionBody_append hb hgroup

/-! ### Tokens around a function -/

theorem HasFunction.of_cons (h : HasFunction n (t :: ts)) (ho : opens t.token = false)
    (hc : closes t.token = false) : HasFunction n ts := by
  obtain ⟨before, params, notes, body, after, heq, hb, hp, hn, hbody⟩ := h
  cases before with
  | nil =>
    -- The parameters start with a bracket, and the token is none.
    obtain ⟨first, inner, last, rfl, hfirst, -, -⟩ := hp
    obtain ⟨rfl, -⟩ := List.cons.inj heq
    rw [hfirst] at ho
    cases ho
  | cons u before =>
    obtain ⟨rfl, rfl⟩ := List.cons.inj heq
    rw [level, ho, hc] at hb
    exact ⟨before, params, notes, body, after, rfl, hb, hp, hn, hbody⟩

theorem HasFunction.of_concat (h : HasFunction n (ts ++ [t]))
    (ht : t.token ≠ .symbol .rightBrace) : HasFunction n ts := by
  obtain ⟨before, params, notes, body, after, heq, hb, hp, hn, hbody⟩ := h
  rcases List.eq_nil_or_concat after with rfl | ⟨after, u, rfl⟩
  -- The body ends in a brace, and the token is none.
  · obtain ⟨first, inner, last, rfl, -, hlast, -⟩ := hbody
    rw [List.append_nil, ← List.cons_append, ← List.append_assoc] at heq
    obtain ⟨-, hlast'⟩ := List.append_inj' heq rfl
    cases hlast'
    exact absurd hlast ht
  · rw [List.concat_eq_append, ← List.append_assoc] at heq
    obtain ⟨rfl, -⟩ := List.append_inj' heq rfl
    exact ⟨before, params, notes, body, after, rfl, hb, hp, hn, hbody⟩

theorem HasFunction.cons (h : HasFunction n ts) (ho : opens t.token = false)
    (hc : closes t.token = false) : HasFunction n (t :: ts) := by
  obtain ⟨before, params, notes, body, after, rfl, hb, hp, hn, hbody⟩ := h
  refine ⟨t :: before, params, notes, body, after, rfl, ?_, hp, hn, hbody⟩
  rw [level, ho, hc]
  exact hb

theorem HasFunction.append (h : HasFunction n ts) (us : List Lexeme) :
    HasFunction n (ts ++ us) := by
  obtain ⟨before, params, notes, body, after, rfl, h⟩ := h
  exact ⟨before, params, notes, body, after ++ us, by simp, h⟩

theorem hasFunction_cons_iff (ho : opens t.token = false) (hc : closes t.token = false) :
    HasFunction n (t :: ts) ↔ HasFunction n ts :=
  ⟨fun h => h.of_cons ho hc, fun h => h.cons ho hc⟩

theorem hasFunction_concat_iff (ht : t.token ≠ .symbol .rightBrace) :
    HasFunction n (ts ++ [t]) ↔ HasFunction n ts :=
  ⟨fun h => h.of_concat ht, fun h => h.append _⟩

/-! ### Declarations and their tokens -/

/-- The declarations of a text, each with the tokens that it takes up. -/
inductive Outline (p : Preprocessed) : List Lexeme → List (Decl × List Lexeme) → Prop
  | nil {ts : List Lexeme} : atEnd ts = true → Outline p ts []
  | cons {ts rest : List Lexeme} {d : Decl} {roots : List (Decl × List Lexeme)} :
      atEnd ts = false → declaration p ts = .ok (d, rest) → Outline p rest roots →
      Outline p ts ((d, consumed ts rest) :: roots)

/-- The tokens after the block with the members of a structure. -/
def afterMembers (ts : List Lexeme) : List Lexeme :=
  match balanced .leftBrace .rightBrace (ts.drop 2) with
  | .ok (_, rest) => rest
  | .error _ => []

/-- A structure behind its members, a type name or a global covers a function. -/
def Swallows : Decl → List Lexeme → Prop
  | .struct _, ts => ∃ n, HasFunction n (afterMembers ts)
  | .typedef _, ts => ∃ n, HasFunction n ts
  | .global, ts => ∃ n, HasFunction n ts
  | _, _ => False

/-- `Skips d ts skipped`: of its tokens `ts`, the declaration `d` skips `skipped` to get to
the semicolon at its end. -/
inductive Skips : Decl → List Lexeme → List Lexeme → Prop
  | struct {first name semicolon : Lexeme} {n : String} {span : Span}
      {members skipped : List Lexeme} : first.token = .keyword .struct →
      name.token.name? = some n → balanced .leftBrace .rightBrace members = .ok (span, []) →
      semicolon.token = .symbol .semicolon →
      Skips (.struct n) (first :: name :: (members ++ (skipped ++ [semicolon]))) skipped
  | typedef {first semicolon : Lexeme} {n : String} {skipped : List Lexeme} :
      first.token = .keyword .typedef → semicolon.token = .symbol .semicolon →
      Skips (.typedef n) (first :: (skipped ++ [semicolon])) skipped
  | global {semicolon : Lexeme} {skipped : List Lexeme} :
      semicolon.token = .symbol .semicolon → Skips .global (skipped ++ [semicolon]) skipped

theorem consumed_of_eq_append {rest : List Lexeme} (h : ts = us ++ rest) :
    consumed ts rest = us := by
  rw [h]
  simp [consumed]

theorem outline_singleton {p : Preprocessed} {d : Decl} (hs : atEnd (us ++ [t]) = false)
    (hd : declaration p (us ++ [t]) = .ok (d, [t])) (ht : atEnd [t] = true) :
    Outline p (us ++ [t]) [(d, us)] := by
  have h := Outline.cons hs hd (.nil ht)
  rwa [consumed_of_eq_append rfl] at h

theorem outline_of_declarations {p : Preprocessed} {ds : List Decl}
    (h : declarations p ts = .ok ds) :
    ∃ roots, Outline p ts roots ∧ roots.map Prod.fst = ds := by
  fun_induction declarations p ts generalizing ds with
  | case1 ts hend =>
    cases h
    exact ⟨[], .nil hend, rfl⟩
  | case2 ts hend d rest hd ih =>
    cases hr : declarations p rest with
    | error e =>
      rw [hr] at h
      cases h
    | ok ds' =>
      rw [hr] at h
      cases h
      obtain ⟨roots, ho, rfl⟩ := ih hr
      exact ⟨_, .cons (by simpa using hend) hd ho, rfl⟩
  | case3 => cases h

theorem Outline.declarations_eq {p : Preprocessed} {roots : List (Decl × List Lexeme)}
    (h : Outline p ts roots) : declarations p ts = .ok (roots.map Prod.fst) := by
  induction h with
  | nil hend =>
    rw [declarations, if_pos hend]
    rfl
  | cons hend hd _ ih =>
    rw [declarations, if_neg (by simp [hend])]
    split
    · next heq =>
      cases heq.symm.trans hd
      rw [ih]
      rfl
    · next heq => cases heq.symm.trans hd

theorem parse_of_outline {p : Preprocessed} {roots : List (Decl × List Lexeme)}
    (h : Outline p ts roots) : parse p ts = .ok (roots.map Prod.fst) := by
  rw [parse, h.declarations_eq]
  rfl

/-! ### What parsers read -/

section Reads

variable {α : Type} {rest : List Lexeme}

theorem exists_of_accept {f : Token → Option α} {a : α} {span : Span}
    (h : accept f ts = .ok ((a, span), rest)) : ∃ t, ts = t :: rest ∧ f t.token = some a := by
  unfold accept at h
  split at h
  · cases h
  · next t r =>
    split at h
    · next hf =>
      cases h
      exact ⟨t, rfl, hf⟩
    · cases h

theorem exists_of_token {k : Token} {u : Unit} (h : token k ts = .ok (u, rest)) :
    ∃ t, ts = t :: rest ∧ t.token = k := by
  obtain ⟨⟨_, span⟩, r, ha, hr⟩ := bind_eq_ok.mp h
  cases hr
  obtain ⟨t, rfl, ht⟩ := exists_of_accept ha
  split at ht
  · next heq => exact ⟨t, rfl, heq⟩
  · cases ht

theorem exists_of_closing? {opening close : Symbol} {depth : Nat} {span : Span}
    (h : closing? opening close depth ts = some (span, rest)) :
    ∃ inner, ts = inner ++ rest ∧ ∀ us,
      closing? opening close depth (inner ++ us) = some (span, us) := by
  fun_induction closing? opening close depth ts with
  | case1 => cases h
  | case2 depth t ts ho ih =>
    obtain ⟨inner, rfl, hi⟩ := ih h
    refine ⟨t :: inner, rfl, fun us => ?_⟩
    unfold closing?
    simp only [List.cons_append, if_pos ho, hi]
  | case3 t ts ho hc =>
    cases h
    refine ⟨[t], rfl, fun us => ?_⟩
    rw [List.singleton_append, closing?, if_neg ho, if_pos hc]
  | case4 t ts ho hc depth ih =>
    obtain ⟨inner, rfl, hi⟩ := ih h
    refine ⟨t :: inner, rfl, fun us => ?_⟩
    rw [List.cons_append, closing?, if_neg ho, if_pos hc]
    exact hi us
  | case5 => cases h
  | case6 depth t ts ho hc he ih =>
    obtain ⟨inner, rfl, hi⟩ := ih h
    refine ⟨t :: inner, rfl, fun us => ?_⟩
    unfold closing?
    simp only [List.cons_append, if_neg ho, if_neg hc, if_neg he, hi]

/-- What is read between brackets does not depend on what follows. -/
theorem exists_of_balanced {opening close : Symbol} {span : Span}
    (h : balanced opening close ts = .ok (span, rest)) :
    ∃ group, ts = group ++ rest ∧ ∀ us, balanced opening close (group ++ us) = .ok (span, us) := by
  unfold balanced at h
  split at h
  · cases h
  · next t r =>
    split at h
    · next ht =>
      split at h
      · next last r' hc =>
        cases h
        obtain ⟨inner, rfl, hi⟩ := exists_of_closing? hc
        refine ⟨t :: inner, rfl, fun us => ?_⟩
        simp [balanced, ht, hi]
      · cases h
    · cases h

theorem append_of_untilSemicolon {skipped : List Lexeme}
    (h : untilSemicolon ts = .ok (skipped, rest)) : ts = skipped ++ rest := by
  unfold untilSemicolon scanUntil at h
  split at h
  · next hs =>
    cases h
    exact (splitUntil_append hs).symm
  · cases h
  · cases h

theorem or_of_orElse {p q : Parser α} {x : α × List Lexeme} (h : orElse p q ts = .ok x) :
    p ts = .ok x ∨ q ts = .ok x := by
  unfold orElse at h
  split at h
  · next hp =>
    cases h
    exact .inl hp
  · split at h
    · next hq =>
      cases h
      exact .inr hq
    · cases h

end Reads

section Skips

variable {p : Preprocessed} {d : Decl} {rest : List Lexeme}

theorem skips_of_struct (h : Grammar.struct ts = .ok (d, rest)) :
    ∃ n skipped, d = .struct n ∧ Skips d (consumed ts rest) skipped := by
  obtain ⟨_, _, hk, h₁⟩ := bind_eq_ok.mp h
  obtain ⟨⟨n, _⟩, _, hn, h₂⟩ := bind_eq_ok.mp h₁
  obtain ⟨span, _, hm, h₃⟩ := bind_eq_ok.mp h₂
  obtain ⟨skipped, _, hs, h₄⟩ := bind_eq_ok.mp h₃
  obtain ⟨_, _, he, h₅⟩ := bind_eq_ok.mp h₄
  cases h₅
  obtain ⟨first, rfl, hfirst⟩ := exists_of_token hk
  obtain ⟨name, rfl, hname⟩ := exists_of_accept hn
  obtain ⟨members, rfl, hmembers⟩ := exists_of_balanced hm
  obtain rfl := append_of_untilSemicolon hs
  obtain ⟨semicolon, rfl, hsemi⟩ := exists_of_token he
  have hts : consumed (first :: name :: (members ++ (skipped ++ semicolon :: rest))) rest =
      first :: name :: (members ++ (skipped ++ [semicolon])) :=
    consumed_of_eq_append (by simp)
  rw [hts]
  exact ⟨n, skipped, rfl, .struct hfirst hname (by simpa using hmembers []) hsemi⟩

theorem skips_of_typedef (h : Grammar.typedef ts = .ok (d, rest)) :
    ∃ n skipped, d = .typedef n ∧ Skips d (consumed ts rest) skipped := by
  obtain ⟨start, _, hg, h₁⟩ := bind_eq_ok.mp h
  cases hg
  obtain ⟨_, _, hk, h₂⟩ := bind_eq_ok.mp h₁
  obtain ⟨skipped, _, hs, h₃⟩ := bind_eq_ok.mp h₂
  obtain ⟨_, _, he, h₄⟩ := bind_eq_ok.mp h₃
  cases hn : skipped.reverse.findSome? (·.token.name?) with
  | none =>
    rw [hn] at h₄
    cases h₄
  | some n =>
    rw [hn] at h₄
    cases h₄
    obtain ⟨first, rfl, hfirst⟩ := exists_of_token hk
    obtain rfl := append_of_untilSemicolon hs
    obtain ⟨semicolon, rfl, hsemi⟩ := exists_of_token he
    have hts : consumed (first :: (skipped ++ semicolon :: rest)) rest =
        first :: (skipped ++ [semicolon]) :=
      consumed_of_eq_append (by simp)
    rw [hts]
    exact ⟨n, skipped, rfl, .typedef hfirst hsemi⟩

/-- What a global skips has passed the guard. -/
theorem skips_of_global (h : Grammar.global ts = .ok (d, rest)) :
    ∃ skipped, d = .global ∧ Skips d (consumed ts rest) skipped ∧
      hasFunctionBody 0 skipped = false := by
  obtain ⟨start, _, hg, h₁⟩ := bind_eq_ok.mp h
  cases hg
  obtain ⟨skipped, _, hs, h₂⟩ := bind_eq_ok.mp h₁
  split at h₂
  · cases h₂
  · next hguard =>
    obtain ⟨_, _, he, h₃⟩ := bind_eq_ok.mp h₂
    cases h₃
    obtain rfl := append_of_untilSemicolon hs
    obtain ⟨semicolon, rfl, hsemi⟩ := exists_of_token he
    have hts : consumed (skipped ++ semicolon :: rest) rest = skipped ++ [semicolon] :=
      consumed_of_eq_append (by simp)
    rw [Bool.or_eq_true, not_or] at hguard
    rw [hts]
    exact ⟨skipped, rfl, .global hsemi, by simpa using hguard.2⟩

theorem exists_of_buffer (h : Grammar.buffer ts = .ok (d, rest)) : ∃ n, d = .buffer n := by
  obtain ⟨_, _, _, h⟩ := bind_eq_ok.mp h
  obtain ⟨⟨n, _⟩, _, _, h⟩ := bind_eq_ok.mp h
  obtain ⟨_, _, _, h⟩ := bind_eq_ok.mp h
  obtain ⟨_, _, _, h⟩ := bind_eq_ok.mp h
  obtain ⟨_, _, _, h⟩ := bind_eq_ok.mp h
  cases h
  exact ⟨n, rfl⟩

theorem exists_of_function (h : Grammar.function p ts = .ok (d, rest)) :
    (∃ f, d = .function f) ∨ ∃ s, d = .prototype s := by
  obtain ⟨s, _, _, h⟩ := bind_eq_ok.mp h
  rcases or_of_orElse h with h | h
  · obtain ⟨_, _, _, h⟩ := bind_eq_ok.mp h
    cases h
    exact .inl ⟨_, rfl⟩
  · obtain ⟨_, _, _, h⟩ := bind_eq_ok.mp h
    cases h
    exact .inr ⟨s, rfl⟩

/-- A declaration that can swallow something skips tokens, and those that a global skips
have passed the guard. -/
theorem skips_of_declaration (h : declaration p ts = .ok (d, rest)) (hs : Swallows d us) :
    ∃ skipped, Skips d (consumed ts rest) skipped ∧
      (d = .global → hasFunctionBody 0 skipped = false) := by
  rcases or_of_orElse h with h | h
  · obtain ⟨n, skipped, rfl, hskip⟩ := skips_of_struct h
    exact ⟨skipped, hskip, nofun⟩
  rcases or_of_orElse h with h | h
  · obtain ⟨n, rfl⟩ := exists_of_buffer h
    exact hs.elim
  rcases or_of_orElse h with h | h
  · obtain ⟨n, skipped, rfl, hskip⟩ := skips_of_typedef h
    exact ⟨skipped, hskip, nofun⟩
  rcases or_of_orElse h with h | h
  · rcases exists_of_function h with ⟨f, rfl⟩ | ⟨s, rfl⟩
    · exact hs.elim
    · exact hs.elim
  rcases or_of_orElse h with h | h
  · obtain ⟨skipped, rfl, hskip, hguard⟩ := skips_of_global h
    exact ⟨skipped, hskip, fun _ => hguard⟩
  · obtain ⟨_, _, _, h⟩ := bind_eq_ok.mp h
    cases h
    exact hs.elim

/-- The keyword in front, the members of a structure and the semicolon at the end hold no
part of a function. -/
theorem swallows_iff_of_skips {skipped : List Lexeme} (h : Skips d ts skipped) :
    Swallows d ts ↔ ∃ n, HasFunction n skipped := by
  cases h with
  | @struct first name semicolon _ span members _ hfirst _ hmembers hsemi =>
    obtain ⟨group, rfl, hgroup⟩ := exists_of_balanced hmembers
    have hafter : afterMembers (first :: name :: (group ++ [] ++ (skipped ++ [semicolon]))) =
        skipped ++ [semicolon] := by
      simp [afterMembers, hgroup]
    rw [Swallows, hafter]
    exact exists_congr fun n => hasFunction_concat_iff (by rw [hsemi]; decide)
  | @typedef first semicolon _ _ hfirst hsemi =>
    have ho : opens first.token = false := by rw [hfirst]; rfl
    have hc : closes first.token = false := by rw [hfirst]; rfl
    exact exists_congr fun n =>
      (hasFunction_cons_iff ho hc).trans (hasFunction_concat_iff (by rw [hsemi]; decide))
  | global hsemi => exact exists_congr fun n => hasFunction_concat_iff (by rw [hsemi]; decide)

end Skips

/-! ### Functions that are swallowed -/

/-- A text in which nothing is replaced. -/
def unprocessed (text : Text) : Preprocessed :=
  { code := text, segments := [⟨0, .copied 0 0⟩], files := [⟨none, text⟩] }

/-- The tokens of `float f(float a b):C{};`, which is no function because of the second
name of the parameter. -/
def annotated : List Lexeme := [
  ⟨.name "float", ⟨0, 5⟩⟩, ⟨.name "f", ⟨6, 7⟩⟩, ⟨.symbol .leftParen, ⟨7, 8⟩⟩,
  ⟨.name "float", ⟨8, 13⟩⟩, ⟨.name "a", ⟨14, 15⟩⟩, ⟨.name "b", ⟨16, 17⟩⟩,
  ⟨.symbol .rightParen, ⟨17, 18⟩⟩, ⟨.symbol .colon, ⟨18, 19⟩⟩, ⟨.name "C", ⟨19, 20⟩⟩,
  ⟨.symbol .leftBrace, ⟨20, 21⟩⟩, ⟨.symbol .rightBrace, ⟨21, 22⟩⟩,
  ⟨.symbol .semicolon, ⟨22, 23⟩⟩]

/-- The tokens of `typedef int t float f(){} int x;`. -/
def typedefBeforeFunction : List Lexeme := [
  ⟨.keyword .typedef, ⟨0, 7⟩⟩, ⟨.name "int", ⟨8, 11⟩⟩, ⟨.name "t", ⟨12, 13⟩⟩,
  ⟨.name "float", ⟨14, 19⟩⟩, ⟨.name "f", ⟨20, 21⟩⟩, ⟨.symbol .leftParen, ⟨21, 22⟩⟩,
  ⟨.symbol .rightParen, ⟨22, 23⟩⟩, ⟨.symbol .leftBrace, ⟨23, 24⟩⟩,
  ⟨.symbol .rightBrace, ⟨24, 25⟩⟩, ⟨.name "int", ⟨26, 29⟩⟩, ⟨.name "x", ⟨30, 31⟩⟩,
  ⟨.symbol .semicolon, ⟨31, 32⟩⟩]

/-- The tokens of `struct S{} float f(){} int x;`. -/
def structBeforeFunction : List Lexeme := [
  ⟨.keyword .struct, ⟨0, 6⟩⟩, ⟨.name "S", ⟨7, 8⟩⟩, ⟨.symbol .leftBrace, ⟨8, 9⟩⟩,
  ⟨.symbol .rightBrace, ⟨9, 10⟩⟩, ⟨.name "float", ⟨11, 16⟩⟩, ⟨.name "f", ⟨17, 18⟩⟩,
  ⟨.symbol .leftParen, ⟨18, 19⟩⟩, ⟨.symbol .rightParen, ⟨19, 20⟩⟩,
  ⟨.symbol .leftBrace, ⟨20, 21⟩⟩, ⟨.symbol .rightBrace, ⟨21, 22⟩⟩, ⟨.name "int", ⟨23, 26⟩⟩,
  ⟨.name "x", ⟨27, 28⟩⟩, ⟨.symbol .semicolon, ⟨28, 29⟩⟩]

theorem exists_of_mem_outline {p : Preprocessed} {roots : List (Decl × List Lexeme)} {d : Decl}
    (h : Outline p ts roots) (hd : (d, us) ∈ roots) :
    ∃ start rest, declaration p start = .ok (d, rest) ∧ us = consumed start rest := by
  induction h with
  | nil => cases hd
  | @cons ts rest _ _ _ hdecl _ ih =>
    rcases List.mem_cons.mp hd with heq | hd
    · cases heq
      exact ⟨ts, rest, hdecl, rfl⟩
    · exact ih hd

/-- **A function is swallowed exactly where nothing looks for it.**  A declaration of a
text that is accepted covers a function if and only if there is one in the tokens that it
skips, where the function in a global has an annotation in front of its body. -/
theorem swallows_iff_of_parse {p : Preprocessed} {ts : List Lexeme} {ds : List Decl}
    (h : parse p ts = .ok ds) :
    ∃ roots, Outline p ts roots ∧ roots.map Prod.fst = ds ∧ ∀ d us, (d, us) ∈ roots →
      (Swallows d us ↔
        ∃ skipped n, Skips d us skipped ∧ HasFunction n skipped ∧ (d = .global → n ≠ 0)) := by
  have hds : declarations p ts = .ok ds := by
    rw [parse] at h
    cases hd : declarations p ts with
    | error e =>
      rw [hd] at h
      cases h
    | ok ds' =>
      rw [hd] at h
      cases h
      rfl
  obtain ⟨roots, houtline, hroots⟩ := outline_of_declarations hds
  refine ⟨roots, houtline, hroots, fun d us hd => ?_⟩
  obtain ⟨start, rest, hdecl, rfl⟩ := exists_of_mem_outline houtline hd
  constructor
  · intro hs
    obtain ⟨skipped, hskip, hguard⟩ := skips_of_declaration hdecl hs
    obtain ⟨n, hf⟩ := (swallows_iff_of_skips hskip).mp hs
    refine ⟨skipped, n, hskip, hf, ?_⟩
    rintro hglobal rfl
    -- The guard would have seen a body right after the parameters.
    have hbody := hasFunctionBody_of_hasFunction hf
    rw [hguard hglobal] at hbody
    cases hbody
  · rintro ⟨skipped, n, hskip, hf, -⟩
    exact (swallows_iff_of_skips hskip).mpr ⟨n, hf⟩

/-- The parameters of `annotated` are followed by one annotation. -/
theorem swallows_iff_of_parse_annotated :
    ∃ roots, Outline (unprocessed "float f(float a b):C{};".toList)
        (annotated ++ [⟨.eof, ⟨23, 23⟩⟩]) roots ∧
      roots.map Prod.fst = [.global] ∧ ∀ d us, (d, us) ∈ roots →
        (Swallows d us ↔
          ∃ skipped n, Skips d us skipped ∧ HasFunction n skipped ∧ (d = .global → n ≠ 0)) := by
  have h : Outline (unprocessed "float f(float a b):C{};".toList)
      (annotated ++ [⟨.eof, ⟨23, 23⟩⟩]) [(.global, annotated)] :=
    outline_singleton (by cbv) (by cbv) rfl
  exact swallows_iff_of_parse (parse_of_outline h)

/-- The text with the given tokens is accepted as one declaration, which swallows a
function. -/
def SwallowedWhole (text : Text) (us : List Lexeme) (d : Decl) : Prop :=
  parse (unprocessed text) (us ++ [⟨.eof, ⟨Text.size text, Text.size text⟩⟩]) = .ok [d] ∧
    Outline (unprocessed text) (us ++ [⟨.eof, ⟨Text.size text, Text.size text⟩⟩]) [(d, us)] ∧
    Swallows d us

theorem SwallowedWhole.of_outline {text : Text} {d : Decl}
    (h : Outline (unprocessed text) (us ++ [⟨.eof, ⟨Text.size text, Text.size text⟩⟩]) [(d, us)])
    (hs : Swallows d us) : SwallowedWhole text us d :=
  ⟨parse_of_outline h, h, hs⟩

/-- **Functions are swallowed**: by a global, whose guard does not see a body behind an
annotation, and by a type name and a structure, which have no guard. -/
theorem parse_swallows :
    SwallowedWhole "float f(float a b):C{};".toList annotated .global ∧
    (∃ n, SwallowedWhole "typedef int t float f(){} int x;".toList typedefBeforeFunction
      (.typedef n)) ∧
    ∃ n, SwallowedWhole "struct S{} float f(){} int x;".toList structBeforeFunction
      (.struct n) := by
  have hbody : ∀ a b, Enclosed .leftBrace .rightBrace
      [⟨.symbol .leftBrace, a⟩, ⟨.symbol .rightBrace, b⟩] := by
    intro a b
    exact ⟨_, [], _, rfl, rfl, rfl, rfl⟩
  have hparams : ∀ a b, Enclosed .leftParen .rightParen
      [⟨.symbol .leftParen, a⟩, ⟨.symbol .rightParen, b⟩] := by
    intro a b
    exact ⟨_, [], _, rfl, rfl, rfl, rfl⟩
  refine ⟨.of_outline (outline_singleton (by cbv) (by cbv) rfl) ⟨1, ?_⟩,
    ⟨"x", .of_outline (outline_singleton (by cbv) (by cbv) rfl) ⟨0, ?_⟩⟩,
    ⟨"S", .of_outline (outline_singleton (by cbv) (by cbv) rfl) ⟨0, ?_⟩⟩⟩
  · have hnote : binding [⟨.symbol .colon, ⟨18, 19⟩⟩, ⟨.name "C", ⟨19, 20⟩⟩] =
        .ok (some "C", []) := by cbv
    exact ⟨annotated.take 2, (annotated.drop 2).take 5, _, _, [_], rfl, rfl,
      ⟨_, (annotated.drop 3).take 3, _, rfl, rfl, rfl, rfl⟩, .cons hnote .nil, hbody _ _⟩
  · exact ⟨typedefBeforeFunction.take 5, _, [], _, typedefBeforeFunction.drop 9, rfl, rfl,
      hparams _ _, .nil, hbody _ _⟩
  · exact ⟨(structBeforeFunction.drop 4).take 2, _, [], _, structBeforeFunction.drop 10,
      rfl, rfl, hparams _ _, .nil, hbody _ _⟩

end PixelWrap.Decl
