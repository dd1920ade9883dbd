import PixelWrap.Proofs.Bodies
import PixelWrap.Proofs.Rescan

/-!
# Excerpts of a text in which macros are replaced

The body of a function is shown as it was written, and what was parsed is the body after its
macros have been replaced.  The two belong together: replacing the macros in the body alone
gives what replacing them in the whole text gave.

A use of a macro may read far beyond its name, so this is not clear at once.  But the
arguments that it takes stand in front of the place where reading goes on, and all that it
learns of the text behind that place is that no parenthesis opens there.  So the text can be
cut off at each place where the scan takes a new step, and nothing in front of it changes.

## Main definitions

* `Quoted.inside`: whether a byte of a text lies in a string literal.
* `Macro.image?`, `Macro.inLiteral`: where a kept byte of a text gets to, and whether the scan
  sees it in a literal.
* `Macro.ReadsArgs`, `Macro.Used`: the arguments of a use, and what becomes of it.
* `Macro.Local`: what is found in a text does not depend on the text behind it.
* `Macro.Step`, `Macro.Steps`: one step of the scan, and many.

## Main results

* `Macro.local_resume`, `Macro.Used.local`: **the text behind a use can be cut off.**
* `Macro.Steps.expandUnder_sources`: what was replaced in some steps is replaced in their text
  alone.
* `Macro.scan_induction`: what each step keeps holds of what a text is cut into.
* `Macro.exists_steps_of_image?`: the scan takes a step at each mark that is kept.
* `Macro.expand_excerpt`: **replacing macros in a passage between two braces gives the passage
  between their images.**
-/

namespace PixelWrap

open Text (size)

namespace Quoted

open Macro (startsInName)

/-! ### Literals -/

/-- A literal ends at the same place if the text behind it starts alike or is cut off.  Where a
name starts behind it, the literal is closed, and it does not matter what follows. -/
theorem split_of_head? {t v : Text} (h : startsInName (split t).2 = false →
    ∀ c ∈ v.head?, c ∈ (split t).2.head?) : split ((split t).1 ++ v) = ((split t).1, v) := by
  have hnil : (∀ c ∈ v.head?, c ∈ ([] : Text).head?) → v = [] := by
    cases v with
    | nil => exact fun _ => rfl
    | cons c v => exact fun hc => nomatch hc c rfl
  induction t using literal_induction with
  | nil =>
    rw [hnil (h rfl)]
    rfl
  | backslash =>
    rw [hnil (h rfl)]
    rfl
  | escape c r ih =>
    rw [split_escape, List.cons_append, List.cons_append, split_escape, ih h]
  | quote r => rfl
  | lineFeed r =>
    cases v with
    | nil => rfl
    | cons d v =>
      cases h rfl d rfl
      rfl
  | other c r hslash hquote hfeed ih =>
    rw [split_other hslash hquote hfeed] at h ⊢
    rw [List.cons_append, split_other hslash hquote hfeed, ih h]

/-- A literal ends at the same place if the text is cut off behind it. -/
theorem split_of_isPrefix {t v : Text} (h : v <+: (split t).2) :
    split ((split t).1 ++ v) = ((split t).1, v) := by
  refine split_of_head? fun _ c hc => ?_
  obtain ⟨u, hu⟩ := h
  rw [← hu]
  exact List.mem_head?_append_of_mem_head? hc

/-- Whether the byte at offset `n` of the text lies in a string literal. -/
def inside : Text → Nat → Bool
  | [], _ => false
  | c :: r, n =>
    if c == '"' then
      n < size (c :: (split r).1) || inside (split r).2 (n - size (c :: (split r).1))
    else c.utf8Size ≤ n && inside r (n - c.utf8Size)
termination_by t => t.length
decreasing_by
  · exact Nat.lt_succ_of_le (split_snd_suffix r).length_le
  · exact Nat.lt_succ_self _

section Inside

variable {s t v : Text} {n : Nat}

theorem inside_append_of_ne (h : ∀ c ∈ s, c ≠ '"') :
    inside (s ++ v) (size s + n) = inside v n := by
  induction s with
  | nil => rw [List.nil_append, Text.size_nil, Nat.zero_add]
  | cons c s ih =>
    have hc : ¬(c == '"') = true := by simpa using h c (List.mem_cons_self ..)
    rw [List.cons_append, inside, if_neg hc, Text.size_cons, Nat.add_assoc,
      Nat.add_sub_cancel_left, ih fun d hd => h d (List.mem_cons_of_mem _ hd),
      decide_eq_true (Nat.le_add_right _ _), Bool.true_and]

theorem inside_literal (h : v <+: (split t).2) :
    inside ('"' :: (split t).1 ++ v) n =
      (n < size ('"' :: (split t).1) || inside v (n - size ('"' :: (split t).1))) := by
  rw [List.cons_append, inside, if_pos (beq_self_eq_true _), split_of_isPrefix h]

end Inside

end Quoted

namespace Macro

open Quoted (split)

variable {t : Table} {disabled : List String}

/-! ### Images -/

/-- Where the byte at offset `n` of a text gets to, if it belongs to a kept piece. -/
def image? : List Piece → Nat → Option Nat
  | [], _ => none
  | .kept s :: ps, n =>
    if n < size s then some n else (image? ps (n - size s)).map (size s + ·)
  | .replaced s o :: ps, n =>
    if n < size s then none else (image? ps (n - size s)).map (size o + ·)

/-- Whether the scan sees the byte at offset `n` of a text in a string literal. -/
def inLiteral : List Piece → Nat → Bool
  | [], _ => false
  | .kept s :: ps, n => if n < size s then Quoted.inside s n else inLiteral ps (n - size s)
  | .replaced s _ :: ps, n => size s ≤ n && inLiteral ps (n - size s)

/-- Puts a piece in front of the pieces; kept text goes into the first one if that is kept as
well. -/
def put : Piece → List Piece → List Piece
  | .kept s, ps => keep s ps
  | .replaced s o, ps => .replaced s o :: ps

theorem flatten_put (p : Piece) (ps : List Piece) :
    flatten (put p ps) = p.output ++ flatten ps := by
  cases p with
  | kept s => exact flatten_keep s ps
  | replaced s o => rfl

/-- Keeping text puts it in front of the first piece, or into it. -/
theorem keep_eq (s : Text) (ps : List Piece) :
    keep s ps = .kept s :: ps ∨
      ∃ r ps', ps = .kept r :: ps' ∧ keep s ps = .kept (s ++ r) :: ps' := by
  unfold keep
  split
  · exact .inr ⟨_, _, rfl, rfl⟩
  · exact .inl rfl

theorem image?_keep_of_lt {s : Text} {ps : List Piece} {n : Nat} (h : n < size s) :
    image? (keep s ps) n = some n := by
  rcases keep_eq s ps with hkeep | ⟨r, ps', rfl, hkeep⟩
  · rw [hkeep, image?, if_pos h]
  · rw [hkeep, image?, Text.size_append, if_pos (by omega)]

theorem kept_of_image?_put {p : Piece} {ps : List Piece} {n i : Nat} (hn : n < size p.source)
    (h : image? (put p ps) n = some i) : (∃ s, p = .kept s) ∧ i = n := by
  cases p with
  | kept s =>
    rw [put, image?_keep_of_lt (s := s) hn] at h
    exact ⟨⟨s, rfl⟩, (Option.some.inj h).symm⟩
  | replaced s o =>
    have hlt : n < size s := hn
    rw [put, image?, if_pos hlt] at h
    cases h

theorem image?_put (p : Piece) (ps : List Piece) (n : Nat) :
    image? (put p ps) (size p.source + n) = (image? ps n).map (size p.output + ·) := by
  cases p with
  | replaced s o =>
    show image? (.replaced s o :: ps) (size s + n) = _
    rw [image?, if_neg (by omega), Nat.add_sub_cancel_left]
    rfl
  | kept s =>
    show image? (keep s ps) (size s + n) = (image? ps n).map (size s + ·)
    rcases keep_eq s ps with hkeep | ⟨r, ps', rfl, hkeep⟩
    · rw [hkeep, image?, if_neg (by omega), Nat.add_sub_cancel_left]
    · rw [hkeep, image?, image?, Text.size_append]
      by_cases hn : n < size r
      · rw [if_pos (by omega), if_pos hn]
        rfl
      · rw [if_neg (by omega), if_neg hn, Nat.add_sub_add_left, Option.map_map]
        congr 1
        funext k
        exact Nat.add_assoc ..

/-! ### Uses -/

/-- The arguments `args` that a use of the macro reads from the text after its name, and the
text behind them. -/
inductive ReadsArgs (m : Macro) (rest : Text) : List Text → Text → Prop
  /-- A macro without parameters reads nothing. -/
  | none : m.params = .none → ReadsArgs m rest [] rest
  | some {params : List String} {inner after : Text} {pieces args : List Text} :
      m.params = .some params → openParen? rest = .some inner →
      collect? 0 inner = .some (pieces, after) →
      matchParams? params.length m.variadic (pieces.map Text.trim) = .some args →
      ReadsArgs m rest args after

theorem readCall_eq_some_iff {m : Macro} {params : List String} {rest after : Text}
    {args : List Text} (hp : m.params = some params) :
    (∃ call, readCall m params rest = .ok (some call) ∧ call.args = args ∧ call.after = after) ↔
      ReadsArgs m rest args after := by
  constructor
  · rintro ⟨call, hcall, rfl, rfl⟩
    unfold readCall at hcall
    split at hcall
    · cases hcall
    · next inner ho =>
      split at hcall
      · cases hcall
      · next pieces after hc =>
        split at hcall
        · cases hcall
        · next args hm =>
          cases hcall
          exact .some hp ho hc hm
  · intro h
    cases h with
    | none hp' => cases hp.symm.trans hp'
    | some hp' ho hc hm =>
      cases hp.symm.trans hp'
      unfold readCall
      split
      · next ho' => cases ho.symm.trans ho'
      · next ho' =>
        cases ho.symm.trans ho'
        split
        · next hc' => cases hc.symm.trans hc'
        · next hc' =>
          cases hc.symm.trans hc'
          split
          · next hm' => cases hm.symm.trans hm'
          · next hm' =>
            cases hm.symm.trans hm'
            exact ⟨_, rfl, rfl, rfl⟩

theorem openParen?_of_readCall {m : Macro} {params : List String} {rest : Text}
    (h : readCall m params rest = .ok none) : openParen? rest = none := by
  unfold readCall at h
  split at h
  · next ho => exact ho
  · split at h
    · cases h
    · split at h <;> cases h

theorem replaceAnswer_eq_ok_iff {m : Macro} {args expanded : List Text} {after : Text}
    {x : Option (Text × Text)} :
    replaceAnswer t disabled m args expanded after = .ok x ↔
      ∃ ps y, scan t (m.name :: disabled) (render args expanded m.body) = .ok ps ∧
        (Task.resume m.name (flatten ps) after : Task t disabled).answer = .ok y ∧ x = some y := by
  simp only [replaceAnswer, Task.answer]
  cases scan t (m.name :: disabled) (render args expanded m.body) with
  | error e => simp [Except.mapError, bind, Except.bind]
  | ok ps =>
    simp only [Except.mapError, bind, Except.bind, Except.ok.injEq, exists_eq_left',
      exists_and_left]
    cases resume t disabled m.name (flatten ps) after with
    | error e => simp [Except.map]
    | ok o => simp [Except.map, pure, Except.pure, eq_comm]

/-- What a use is replaced by and the text behind it: the arguments are read, their macros are
replaced, the replacement text is read with the macro disabled, and the outcome is resumed. -/
inductive Used (m : Enabled t disabled) (rest : Text) (x : Text × Text) : Prop
  | intro {args expanded : List Text} {middle : Text} {ps : List Piece} :
      ReadsArgs m.val rest args middle → args.mapM (t.expandUnder disabled) = .ok expanded →
      scan t (m.val.name :: disabled) (render args expanded m.val.body) = .ok ps →
      (Task.resume m.val.name (flatten ps) middle : Task t disabled).answer = .ok x →
      Used m rest x

/-- What a name of a macro can come to: it is no use, or it is used. -/
theorem answer_invoke_eq_ok_iff {m : Enabled t disabled} {rest : Text} {y : Option (Text × Text)} :
    (Task.invoke m rest).answer = .ok y ↔
      (m.val.isFunctionLike = true ∧ openParen? rest = none ∧ y = none) ∨
        ∃ x, y = some x ∧ Used m rest x := by
  show (invoke t disabled m rest).map _ = _ ↔ _
  cases hp : m.val.params with
  | none =>
    rw [invoke_of_params_none rest hp, replaceAnswer_eq_ok_iff]
    constructor
    · rintro ⟨ps, x, hscan, hresume, rfl⟩
      exact .inr ⟨x, rfl, .intro (.none hp) rfl hscan hresume⟩
    · rintro (⟨hm, -⟩ | ⟨x, rfl, hused⟩)
      · rw [isFunctionLike, hp] at hm
        cases hm
      · obtain ⟨hargs, hexpanded, hscan, hresume⟩ := hused
        cases hargs with
        | none =>
          cases hexpanded
          exact ⟨_, x, hscan, hresume, rfl⟩
        | some hp' => cases hp.symm.trans hp'
  | some params =>
    rw [invoke_of_params_some rest hp]
    constructor
    · intro h
      split at h
      · cases h
      · next hcall =>
        cases h
        exact .inl ⟨by rw [isFunctionLike, hp]; rfl, openParen?_of_readCall hcall, rfl⟩
      · next call hcall =>
        obtain ⟨expanded, hexpanded, h⟩ := Preprocessed.bind_eq_ok.mp h
        obtain ⟨ps, x, hscan, hresume, rfl⟩ := replaceAnswer_eq_ok_iff.mp h
        have hargs := (readCall_eq_some_iff hp).mp ⟨call, hcall, rfl, rfl⟩
        exact .inr ⟨x, rfl, .intro hargs hexpanded hscan hresume⟩
    · rintro (⟨hm, hopen, rfl⟩ | ⟨x, rfl, hused⟩)
      · rw [← invoke_of_params_some rest hp, invoke_of_openParen?_eq_none hm hopen]
        rfl
      · obtain ⟨hargs, hexpanded, hscan, hresume⟩ := hused
        obtain ⟨call, hcall, rfl, rfl⟩ := (readCall_eq_some_iff hp).mpr hargs
        rw [hcall]
        exact Preprocessed.bind_eq_ok.mpr ⟨_, hexpanded,
          replaceAnswer_eq_ok_iff.mpr ⟨_, x, hscan, hresume, rfl⟩⟩

/-- **A name is no use just if the macro has parameters and no parenthesis follows.** -/
theorem answer_invoke_eq_none_iff {m : Enabled t disabled} {rest : Text} :
    (Task.invoke m rest).answer = .ok none ↔
      m.val.isFunctionLike = true ∧ openParen? rest = none := by
  rw [answer_invoke_eq_ok_iff]
  simp

theorem answer_invoke_eq_some_iff {m : Enabled t disabled} {rest : Text} {x : Text × Text} :
    (Task.invoke m rest).answer = .ok (some x) ↔ Used m rest x := by
  rw [answer_invoke_eq_ok_iff]
  simp

/-- The answer of going on with a replacement. -/
theorem answer_resume (origin : String) (output rest : Text) :
    (Task.resume origin output rest : Task t disabled).answer =
      match t.enabled? disabled (trailingName output) with
      | none => .ok (output, rest)
      | some m =>
        if m.val.isFunctionLike && m.val.name != origin then
          match (Task.invoke m rest).answer with
          | .error e => .error e
          | .ok none => .ok (output, rest)
          | .ok (some (tail, after)) =>
            (Task.resume origin (beforeTrailingName output ++ tail) after : Task t disabled).answer
        else .ok (output, rest) := by
  simp only [Task.answer]
  rw [resume]
  cases t.enabled? disabled (trailingName output) with
  | none => rfl
  | some m =>
    dsimp only
    split
    · cases invoke t disabled m rest with
      | error e => rfl
      | ok o =>
        cases o with
        | none => rfl
        | some o =>
          simp only [bind, Except.bind, Except.map, Option.map_some]
          cases resume t disabled origin (beforeTrailingName output ++ o.val.output)
              o.val.after with
          | error e => rfl
          | ok o => rfl
    · rfl

/-- Going on with a replacement stops at once, or it takes one more use. -/
theorem answer_resume_eq_ok_iff {origin : String} {output rest : Text} {x : Text × Text} :
    (Task.resume origin output rest : Task t disabled).answer = .ok x ↔
      (x = (output, rest) ∧ ∀ m, t.enabled? disabled (trailingName output) = some m →
        m.val.isFunctionLike = true → m.val.name ≠ origin → openParen? rest = none) ∨
      ∃ m tail after, t.enabled? disabled (trailingName output) = some m ∧
        m.val.isFunctionLike = true ∧ m.val.name ≠ origin ∧ Used m rest (tail, after) ∧
        (Task.resume origin (beforeTrailingName output ++ tail) after : Task t disabled).answer =
          .ok x := by
  rw [answer_resume]
  cases he : t.enabled? disabled (trailingName output) with
  | none =>
    constructor
    · rintro ⟨⟩
      exact .inl ⟨rfl, nofun⟩
    · rintro (⟨rfl, -⟩ | ⟨m, tail, after, hm, -⟩)
      · rfl
      · cases hm
  | some m =>
    dsimp only
    split
    · next hm =>
      simp only [Bool.and_eq_true, bne_iff_ne] at hm
      constructor
      · intro h
        split at h
        · cases h
        · next hnone =>
          cases h
          exact .inl ⟨rfl, fun _ _ _ _ => (answer_invoke_eq_none_iff.mp hnone).2⟩
        · next tail after hsome =>
          exact .inr ⟨m, tail, after, rfl, hm.1, hm.2, answer_invoke_eq_some_iff.mp hsome, h⟩
      · rintro (⟨rfl, hopen⟩ | ⟨m', tail, after, hm', -, -, hused, h⟩)
        · rw [answer_invoke_eq_none_iff.mpr ⟨hm.1, hopen m rfl hm.1 hm.2⟩]
        · cases hm'
          rw [answer_invoke_eq_some_iff.mpr hused]
          exact h
    · next hm =>
      constructor
      · rintro ⟨⟩
        refine .inl ⟨rfl, fun m' hm' hfun hne => absurd ?_ hm⟩
        cases hm'
        simp [hfun, hne]
      · rintro (⟨rfl, -⟩ | ⟨m', tail, after, hm', hfun, hne, -⟩)
        · rfl
        · cases hm'
          exact absurd (by simp [hfun, hne]) hm

/-! ### Cutting the text off -/

/-- What holds of the text `rest`, with `after` being left of it, still holds if some of `after`
is cut off. -/
def Local (P : Text → Text → Prop) (rest after : Text) : Prop :=
  ∃ s, rest = s ++ after ∧ ∀ v, v <+: after → P (s ++ v) v

section Local

variable {P Q R : Text → Text → Prop} {a b c : Text}

theorem Local.refl (h : ∀ v, v <+: a → P v v) : Local P a a := ⟨[], rfl, h⟩

theorem Local.trans (h : Local P a b) (h' : Local Q b c)
    (hR : ∀ {a b c}, P a b → Q b c → R a c) : Local R a c := by
  obtain ⟨s, rfl, hs⟩ := h
  obtain ⟨s', rfl, hs'⟩ := h'
  refine ⟨s ++ s', (List.append_assoc ..).symm, fun v hv => ?_⟩
  rw [List.append_assoc]
  exact hR (hs _ ((List.prefix_append_right_inj s').mpr hv)) (hs' v hv)

end Local

/-- Only white space stands in front of a parenthesis that opens arguments. -/
theorem exists_of_openParen? {rest inner : Text} (h : openParen? rest = some inner) :
    ∃ s, rest = s ++ '(' :: inner ∧ (∀ c ∈ s, isSpace c = true) ∧
      ∀ v, openParen? (s ++ '(' :: v) = some v := by
  unfold openParen? at h
  split at h
  · next hi =>
    cases h
    refine ⟨rest.takeWhile isSpace, ?_, fun _ hc => List.mem_takeWhile_imp hc, fun v => ?_⟩
    · rw [← hi, Text.trimStart, List.takeWhile_append_dropWhile]
    · have htrim : Text.trimStart (rest.takeWhile isSpace ++ '(' :: v) = '(' :: v :=
        Condition.dropWhile_append_of_head (fun c hc => List.mem_takeWhile_imp hc)
          (by rintro c ⟨⟩; decide)
      rw [openParen?, htrim]
      rfl
  · cases h

/-- Where no parenthesis opens, none opens if the text is cut off. -/
theorem openParen?_of_isPrefix {v w : Text} (h : v <+: w) (hw : openParen? w = none) :
    openParen? v = none := by
  cases hv : openParen? v with
  | none => rfl
  | some inner =>
    obtain ⟨s, rfl, -, hs⟩ := exists_of_openParen? hv
    obtain ⟨u, rfl⟩ := h
    rw [List.append_assoc, List.cons_append, hs] at hw
    cases hw

theorem exists_prependFirst_eq (s : Text) :
    ∃ g : List Text → List Text, ∀ q, prependFirst s q = (g q.1, q.2) := by
  refine ⟨fun as => (prependFirst s (as, [])).1, ?_⟩
  rintro ⟨_ | ⟨a, as⟩, rest⟩ <;> rfl

theorem collect?_cons (depth : Nat) (c : Char) (r : Text) :
    collect? depth (c :: r) =
      if c == '"' then (collect? depth (split r).2).map (prependFirst (c :: (split r).1))
      else if c == '(' then (collect? (depth + 1) r).map (prependFirst [c])
      else if c == ')' then
        match depth with
        | 0 => some ([[]], r)
        | d + 1 => (collect? d r).map (prependFirst [c])
      else if c == ',' && depth == 0 then (collect? 0 r).map fun (as, rest) => ([] :: as, rest)
      else (collect? depth r).map (prependFirst [c]) :=
  collect?.eq_def depth (c :: r)

/-- **Arguments do not depend on the text behind them.** -/
theorem local_collect? {depth : Nat} {text after : Text} {as : List Text}
    (h : collect? depth text = some (as, after)) :
    Local (fun text after => collect? depth text = some (as, after)) text after := by
  -- In every recursive case some text is put in front of what the rest gives.
  have step : ∀ {s r after : Text} {as : List Text} {d d' : Nat} {f : List Text × Text → _},
      (∃ g : List Text → List Text, ∀ q, f q = (g q.1, q.2)) →
      (∀ r', r' <+: r → collect? d (s ++ r') = (collect? d' r').map f) →
      (∀ {as after}, collect? d' r = some (as, after) →
        Local (fun text after => collect? d' text = some (as, after)) r after) →
      (collect? d' r).map f = some (as, after) →
      Local (fun text after => collect? d text = some (as, after)) (s ++ r) after := by
    rintro s r after as d d' f ⟨g, hf⟩ heq ih h
    obtain ⟨⟨as', after'⟩, hq, hx⟩ := Option.map_eq_some_iff.mp h
    rw [hf] at hx
    cases hx
    obtain ⟨x, rfl, hx⟩ := ih hq
    refine ⟨s ++ x, (List.append_assoc ..).symm, fun v hv => ?_⟩
    show collect? d (s ++ x ++ v) = _
    rw [List.append_assoc, heq _ ((List.prefix_append_right_inj x).mpr hv), hx v hv,
      Option.map_some, hf]
  fun_induction collect? depth text generalizing as after with
  | case1 => cases h
  | case2 depth c r hc ih =>
    have hlocal := step (s := c :: (split r).1) (d := depth) (exists_prependFirst_eq _)
      (fun r' hr' => ?_) ih h
    · rwa [List.cons_append, Quoted.split_append] at hlocal
    · rw [List.cons_append, collect?_cons, if_pos hc, Quoted.split_of_isPrefix hr']
  | case3 depth c r hq hc ih =>
    refine step (s := [c]) (exists_prependFirst_eq _) (fun r' _ => ?_) ih h
    rw [List.singleton_append, collect?_cons, if_neg hq, if_pos hc]
  | case4 c r hq ho hc =>
    cases h
    refine ⟨[c], rfl, fun v _ => ?_⟩
    show collect? 0 ([c] ++ v) = some ([[]], v)
    rw [List.singleton_append, collect?_cons, if_neg hq, if_neg ho, if_pos hc]
  | case5 c r hq ho hc d ih =>
    refine step (s := [c]) (exists_prependFirst_eq _) (fun r' _ => ?_) ih h
    rw [List.singleton_append, collect?_cons, if_neg hq, if_neg ho, if_pos hc]
  | case6 depth c r hq ho hc hcomma ih =>
    refine step (s := [c]) ⟨([] :: ·), fun _ => rfl⟩ (fun r' _ => ?_) ih h
    rw [List.singleton_append, collect?_cons, if_neg hq, if_neg ho, if_neg hc, if_pos hcomma]
  | case7 depth c r hq ho hc hcomma ih =>
    refine step (s := [c]) (exists_prependFirst_eq _) (fun r' _ => ?_) ih h
    rw [List.singleton_append, collect?_cons, if_neg hq, if_neg ho, if_neg hc, if_neg hcomma]

theorem ReadsArgs.local {m : Macro} {rest after : Text} {args : List Text}
    (h : ReadsArgs m rest args after) : Local (ReadsArgs m · args ·) rest after := by
  cases h with
  | none hp => exact .refl fun v _ => .none hp
  | some hp ho hc hm =>
    obtain ⟨s, rfl, -, hs⟩ := exists_of_openParen? ho
    obtain ⟨x, rfl, hx⟩ := local_collect? hc
    refine ⟨s ++ '(' :: x, by simp, fun v hv => ?_⟩
    rw [List.append_assoc, List.cons_append]
    exact .some hp (hs _) (hx v hv) hm

theorem ReadsArgs.length_lt {m : Macro} {rest after : Text} {args : List Text}
    (h : ReadsArgs m rest args after) (hm : m.isFunctionLike = true) :
    after.length < rest.length := by
  cases h with
  | none hp =>
    rw [isFunctionLike, hp] at hm
    cases hm
  | some hp ho hc hm =>
    have hopen := (openParen?_suffix ho).length_le
    have hclose : after.length < _ := (collect?_suffix hc).2
    rw [List.length_cons] at hopen
    omega

theorem Used.length_lt {m : Enabled t disabled} {rest after out : Text}
    (h : Used m rest (out, after)) (hm : m.val.isFunctionLike = true) :
    after.length < rest.length := by
  obtain ⟨hargs, -, -, hresume⟩ := h
  obtain ⟨o, -, ho⟩ := map_eq_ok hresume
  cases ho
  exact Nat.lt_of_le_of_lt o.isSuffix.length_le (hargs.length_lt hm)

/-- **Induction on resuming.**  It stops at once, or a use is taken up.  The use has parameters, so
that what is resumed is shorter, in it and behind it. -/
theorem resume_induction {P : String → Text → Text → Text × Text → Prop}
    (stop : ∀ {origin : String} {output rest : Text},
      (∀ m, t.enabled? disabled (trailingName output) = some m →
        m.val.isFunctionLike = true → m.val.name ≠ origin → openParen? rest = none) →
      P origin output rest (output, rest))
    (use : ∀ {origin : String} {output rest tail middle : Text} {x : Text × Text}
      {m : Enabled t disabled}, t.enabled? disabled (trailingName output) = some m →
      m.val.isFunctionLike = true → m.val.name ≠ origin → Used m rest (tail, middle) →
      (∀ {inner start : Text}, start.length < rest.length →
        (Task.resume m.val.name inner start : Task t disabled).answer = .ok (tail, middle) →
        P m.val.name inner start (tail, middle)) →
      P origin (beforeTrailingName output ++ tail) middle x → P origin output rest x)
    {origin : String} {output rest : Text} {x : Text × Text}
    (h : (Task.resume origin output rest : Task t disabled).answer = .ok x) :
    P origin output rest x := by
  induction hn : rest.length using Nat.strongRecOn generalizing origin output rest x with
  | ind n ih =>
    subst hn
    rcases answer_resume_eq_ok_iff.mp h with
      ⟨rfl, hopen⟩ | ⟨m, tail, middle, he, hm, hne, hused, hr⟩
    · exact stop hopen
    · exact use he hm hne hused (fun hlt hinner => ih _ hlt hinner rfl)
        (ih _ (hused.length_lt hm) hr rfl)

/-- The text behind a use can be cut off if it can be where the use is resumed. -/
theorem Used.local_of_resume {m : Enabled t disabled} {rest after out : Text}
    (h : Used m rest (out, after))
    (hresume : ∀ {output middle}, (m.val.isFunctionLike = true → middle.length < rest.length) →
      (Task.resume m.val.name output middle : Task t disabled).answer = .ok (out, after) →
      Local (fun rest after => (Task.resume m.val.name output rest : Task t disabled).answer =
        .ok (out, after)) middle after) :
    Local (fun rest after => Used m rest (out, after)) rest after := by
  obtain ⟨hargs, hexpanded, hscan, hr⟩ := h
  exact hargs.local.trans (hresume hargs.length_lt hr) fun hargs hr =>
    .intro hargs hexpanded hscan hr

/-- **The text behind a replacement that has been resumed can be cut off.** -/
theorem local_resume {origin : String} {output rest after out : Text}
    (h : (Task.resume origin output rest : Task t disabled).answer = .ok (out, after)) :
    Local (fun rest after =>
      (Task.resume origin output rest : Task t disabled).answer = .ok (out, after)) rest after := by
  refine resume_induction (P := fun origin output rest x => Local (fun rest after =>
    (Task.resume origin output rest : Task t disabled).answer = .ok (x.1, after)) rest x.2) ?_ ?_ h
  · intro origin output rest hopen
    refine .refl fun v hv => answer_resume_eq_ok_iff.mpr (.inl ⟨rfl, fun m he hm hne => ?_⟩)
    exact openParen?_of_isPrefix hv (hopen m he hm hne)
  · intro origin output rest tail middle x m he hm hne hused hinner hbehind
    have hlocal := hused.local_of_resume fun hlt hr => hinner (hlt hm) hr
    exact hlocal.trans hbehind fun hused hr =>
      answer_resume_eq_ok_iff.mpr (.inr ⟨m, tail, _, he, hm, hne, hused, hr⟩)

/-- **The text behind a use can be cut off.** -/
theorem Used.local {m : Enabled t disabled} {rest after out : Text}
    (h : Used m rest (out, after)) :
    Local (fun rest after => Used m rest (out, after)) rest after :=
  h.local_of_resume fun _ => local_resume

/-! ### Steps of the scan -/

/-- The characters of a word, and no more of them in the text behind it. -/
structure IsWord (w rest : Text) : Prop where
  ne_nil : w ≠ []
  chars : ∀ c ∈ w, isNameChar c = true
  stop : ∀ c ∈ rest.head?, isNameChar c = false

theorem IsWord.of_isPrefix {w rest v : Text} (h : IsWord w rest) (hv : v <+: rest) :
    IsWord w v := by
  refine ⟨h.ne_nil, h.chars, fun c hc => h.stop c ?_⟩
  obtain ⟨u, rfl⟩ := hv
  cases v with
  | nil => cases hc
  | cons d v => exact hc

theorem isWord_takeWhile {c : Char} (r : Text) (hc : isNameChar c = true) :
    IsWord (c :: r.takeWhile isNameChar) (r.dropWhile isNameChar) := by
  refine ⟨List.cons_ne_nil _ _, ?_, ?_⟩
  · rintro d (_ | ⟨_, hd⟩)
    · exact hc
    · exact List.mem_takeWhile_imp hd
  · exact fun d => Token.of_mem_head?_dropWhile

/-- The scan takes a step: the text starts with the source of the piece, and `rest` is left. -/
inductive Step (t : Table) (disabled : List String) : Text → Piece → Text → Prop
  | literal (r : Text) : Step t disabled ('"' :: r) (.kept ('"' :: (split r).1)) (split r).2
  /-- A word that is no use of a macro. -/
  | word {w rest : Text} : IsWord w rest →
      (∀ m, t.enabled? disabled w = some m →
        m.val.isFunctionLike = true ∧ openParen? rest = none) →
      Step t disabled (w ++ rest) (.kept w) rest
  /-- A use, with its arguments. -/
  | use {w args after out : Text} {m : Enabled t disabled} : IsWord w (args ++ after) →
      t.enabled? disabled w = some m → Used m (args ++ after) (out, after) →
      Step t disabled (w ++ (args ++ after)) (.replaced (w ++ args) out) after
  | mark {c : Char} (r : Text) : c ≠ '"' → isNameChar c = false →
      Step t disabled (c :: r) (.kept [c]) r

/-- The scan takes one step after the other. -/
inductive Steps (t : Table) (disabled : List String) : Text → List Piece → Text → Prop
  | refl (text : Text) : Steps t disabled text [] text
  | cons {text middle rest : Text} {p : Piece} {qs : List Piece} : Step t disabled text p middle →
      Steps t disabled middle qs rest → Steps t disabled text (p :: qs) rest

section Steps

variable {text rest : Text} {p : Piece} {qs ps : List Piece}

theorem Step.source_append (h : Step t disabled text p rest) : p.source ++ rest = text := by
  cases h with
  | literal r => exact congrArg ('"' :: ·) (Quoted.split_append r)
  | word => rfl
  | use => exact List.append_assoc ..
  | mark => rfl

theorem Step.source_ne_nil (h : Step t disabled text p rest) : p.source ≠ [] := by
  cases h with
  | literal r => exact List.cons_ne_nil _ _
  | word hw => exact hw.ne_nil
  | use hw => exact List.append_ne_nil_of_left_ne_nil hw.ne_nil _
  | mark => exact List.cons_ne_nil _ _

theorem Step.length_lt (h : Step t disabled text p rest) : rest.length < text.length := by
  have hpos := List.length_pos_iff.mpr h.source_ne_nil
  rw [← h.source_append, List.length_append]
  omega

theorem Steps.sources_append (h : Steps t disabled text qs rest) : sources qs ++ rest = text := by
  induction h with
  | refl => rfl
  | cons hstep _ ih => rw [sources_cons, List.append_assoc, ih, hstep.source_append]

theorem Step.local (h : Step t disabled text p rest) : Local (Step t disabled · p ·) text rest := by
  cases h with
  | literal r =>
    refine ⟨'"' :: (split r).1, (congrArg ('"' :: ·) (Quoted.split_append r)).symm, fun v hv => ?_⟩
    have hstep : Step t disabled _ _ _ := .literal ((split r).1 ++ v)
    rwa [Quoted.split_of_isPrefix hv] at hstep
  | @word w rest hw hm =>
    refine ⟨w, rfl, fun v hv => .word (hw.of_isPrefix hv) fun m he => ?_⟩
    exact (hm m he).imp_right (openParen?_of_isPrefix hv)
  | @use w args after out m hw he hused =>
    obtain ⟨s, hs, hlocal⟩ := hused.local
    cases List.append_cancel_right hs
    refine ⟨w ++ args, (List.append_assoc ..).symm, fun v hv => ?_⟩
    rw [List.append_assoc]
    exact .use (hw.of_isPrefix ((List.prefix_append_right_inj args).mpr hv)) he (hlocal v hv)
  | @mark c r hq hc => exact ⟨[c], rfl, fun v _ => .mark v hq hc⟩

theorem Steps.local (h : Steps t disabled text qs rest) :
    Local (Steps t disabled · qs ·) text rest := by
  induction h with
  | refl => exact .refl fun v _ => .refl v
  | cons hstep _ ih => exact hstep.local.trans ih .cons

/-- **The text behind some steps can be cut off.** -/
theorem Steps.cut (h : Steps t disabled text qs rest) : Steps t disabled (sources qs) qs [] := by
  have happend := h.sources_append
  obtain ⟨s, rfl, hs⟩ := h.local
  cases List.append_cancel_right happend
  have hcut := hs [] List.nil_prefix
  rwa [List.append_nil] at hcut

/-- How the scan goes on at a word. -/
theorem scan_word {w : Text} (hw : IsWord w rest) :
    scan t disabled (w ++ rest) =
      match t.enabled? disabled w with
      | none => (scan t disabled rest).map (keep w)
      | some m =>
        match (Task.invoke m rest).answer with
        | .error e => .error ⟨e, w ++ rest⟩
        | .ok none => (scan t disabled rest).map (keep w)
        | .ok (some (out, after)) =>
          (scan t disabled after).map
            (.replaced ((w ++ rest).take ((w ++ rest).length - after.length)) out :: ·) := by
  obtain ⟨c, w, rfl⟩ := List.exists_cons_of_ne_nil hw.ne_nil
  have hc := hw.chars c (List.mem_cons_self ..)
  have hchars : ∀ d ∈ w, isNameChar d = true := fun d hd => hw.chars d (List.mem_cons_of_mem _ hd)
  have htake := Condition.takeWhile_append_of_head hchars hw.stop
  have hdrop := Condition.dropWhile_append_of_head hchars hw.stop
  simp only [List.cons_append]
  generalize w ++ rest = r at htake hdrop
  subst htake hdrop
  rw [scan, if_neg (ne_quote_of_isNameChar hc), if_pos hc]
  cases t.enabled? disabled (c :: r.takeWhile isNameChar) with
  | none => rfl
  | some m =>
    simp only [Task.answer]
    cases invoke t disabled m (r.dropWhile isNameChar) with
    | error e => rfl
    | ok o =>
      cases o with
      | none => rfl
      | some o => rfl

/-- A step puts its piece in front of the others. -/
theorem Step.scan_eq (h : Step t disabled text p rest) :
    scan t disabled text = (scan t disabled rest).map (put p) := by
  cases h with
  | literal r =>
    rw [scan, if_pos (beq_self_eq_true _)]
    rfl
  | @word w rest hw hm =>
    rw [scan_word hw]
    cases he : t.enabled? disabled w with
    | none => rfl
    | some m =>
      simp only [answer_invoke_eq_none_iff.mpr (hm m he)]
      rfl
  | @use w args after out m hw he hused =>
    simp only [scan_word hw, he, answer_invoke_eq_some_iff.mpr hused]
    rw [← List.append_assoc, List.length_append, Nat.add_sub_cancel, List.take_left]
    rfl
  | mark r hq hc =>
    rw [scan, if_neg (by simpa using hq), if_neg (by simp [hc])]
    rfl

/-- A text that is not empty starts with a step, or with the name of a macro whose use fails. -/
theorem exists_step_or_error (t : Table) (disabled : List String) (hne : text ≠ []) :
    (∃ p rest, Step t disabled text p rest) ∨
      ∃ w rest m e, text = w ++ rest ∧ IsWord w rest ∧ t.enabled? disabled w = some m ∧
        (Task.invoke m rest).answer = .error e := by
  obtain ⟨c, r, rfl⟩ := List.exists_cons_of_ne_nil hne
  by_cases hc : isNameChar c = true
  · have hw := isWord_takeWhile r hc
    have hcons : c :: r = c :: r.takeWhile isNameChar ++ r.dropWhile isNameChar := by
      rw [List.cons_append, List.takeWhile_append_dropWhile]
    rw [hcons]
    cases he : t.enabled? disabled (c :: r.takeWhile isNameChar) with
    | none => exact .inl ⟨_, _, .word hw fun m hm => by cases he.symm.trans hm⟩
    | some m =>
      cases ha : (Task.invoke m (r.dropWhile isNameChar)).answer with
      | error e => exact .inr ⟨_, _, m, e, rfl, hw, he, ha⟩
      | ok o =>
        cases o with
        | none =>
          refine .inl ⟨_, _, .word hw fun m' hm' => ?_⟩
          cases he.symm.trans hm'
          exact answer_invoke_eq_none_iff.mp ha
        | some x =>
          obtain ⟨out, after⟩ := x
          have hused := answer_invoke_eq_some_iff.mp ha
          obtain ⟨args, hrest, -⟩ := hused.local
          rw [hrest] at hw hused ⊢
          exact .inl ⟨_, _, .use hw he hused⟩
  · by_cases hq : c = '"'
    · subst hq
      exact .inl ⟨_, _, .literal r⟩
    · exact .inl ⟨_, _, .mark r hq (by simpa using hc)⟩

/-- Where a use fails, the scan fails, and it says so. -/
theorem scan_eq_error {w : Text} {m : Enabled t disabled} {e : Error} (hw : IsWord w rest)
    (he : t.enabled? disabled w = some m) (ha : (Task.invoke m rest).answer = .error e) :
    scan t disabled (w ++ rest) = .error ⟨e, w ++ rest⟩ := by
  simp only [scan_word hw, he, ha]

/-- **A scan that does not fail takes a step, unless it is at the end.** -/
theorem exists_step_of_scan (h : scan t disabled text = .ok ps) (hne : text ≠ []) :
    ∃ p rest ps', Step t disabled text p rest ∧ scan t disabled rest = .ok ps' ∧
      ps = put p ps' := by
  obtain ⟨p, rest, hstep⟩ | ⟨w, rest, m, e, rfl, hw, he, ha⟩ :=
    exists_step_or_error t disabled hne
  · rw [hstep.scan_eq] at h
    obtain ⟨ps', hps', hps⟩ := map_eq_ok h
    exact ⟨p, rest, ps', hstep, hps', hps⟩
  · rw [scan_eq_error hw he ha] at h
    cases h

/-- **What holds of the end of a text and is kept by each step in front of it holds of what a
text is cut into.** -/
theorem scan_induction {P : Text → List Piece → Prop} (nil : P [] [])
    (step : ∀ {text rest p ps}, Step t disabled text p rest → P rest ps → P text (put p ps))
    (h : scan t disabled text = .ok ps) : P text ps := by
  induction hn : text.length using Nat.strongRecOn generalizing text ps with
  | ind n ih =>
    subst hn
    by_cases hne : text = []
    · subst hne
      rw [scan] at h
      cases h
      exact nil
    · obtain ⟨p, rest, ps', hstep, hps', rfl⟩ := exists_step_of_scan h hne
      exact step hstep (ih _ hstep.length_lt hps' rfl)

theorem Steps.concat {middle : Text} (h : Steps t disabled text qs middle)
    (hstep : Step t disabled middle p rest) : Steps t disabled text (qs ++ [p]) rest := by
  induction h with
  | refl => exact .cons hstep (.refl _)
  | cons hfirst _ ih => exact .cons hfirst (ih hstep)

theorem Steps.scan_eq (h : Steps t disabled text qs rest) :
    scan t disabled text = (scan t disabled rest).map (qs.foldr put) := by
  induction h with
  | @refl text =>
    cases scan t disabled text <;> rfl
  | @cons text middle rest p qs hstep _ ih =>
    rw [hstep.scan_eq, ih]
    cases scan t disabled rest <;> rfl

theorem flatten_foldr_put (qs ps : List Piece) :
    flatten (qs.foldr put ps) = flatten qs ++ flatten ps := by
  induction qs with
  | nil => rfl
  | cons p qs ih =>
    rw [List.foldr_cons, flatten_put, ih, ← List.append_assoc]
    rfl

/-- **What was replaced in some steps is replaced in their text alone.** -/
theorem Steps.expandUnder_sources (h : Steps t disabled text qs rest) :
    t.expandUnder disabled (sources qs) = .ok (flatten qs) := by
  rw [Table.expandUnder, h.cut.scan_eq, scan]
  refine congrArg Except.ok ?_
  rw [flatten_foldr_put]
  exact List.append_nil _

/-! ### Where the scan takes a step -/

theorem image?_foldr_put (qs ps : List Piece) (n : Nat) :
    image? (qs.foldr put ps) (size (sources qs) + n) =
      (image? ps n).map (size (flatten qs) + ·) := by
  induction qs with
  | nil =>
    rw [List.foldr_nil, sources_nil, Text.size_nil, Nat.zero_add]
    show _ = (image? ps n).map (0 + ·)
    simp only [Nat.zero_add, Option.map_id_fun', id_eq]
  | cons p qs ih =>
    rw [List.foldr_cons, sources_cons, Text.size_append, Nat.add_assoc, image?_put, ih,
      Option.map_map]
    congr 1
    funext k
    show size p.output + (size (flatten qs) + k) = size (p.output ++ flatten qs) + k
    rw [Text.size_append, Nat.add_assoc]

theorem Step.inside_append {s v : Text} (h : Step t disabled text (.kept s) rest) (hv : v <+: rest)
    (n : Nat) : Quoted.inside (s ++ v) (size s + n) = Quoted.inside v n := by
  cases h with
  | literal r =>
    rw [Quoted.inside_literal hv, decide_eq_false (by omega), Bool.false_or,
      Nat.add_sub_cancel_left]
  | word hw =>
    refine Quoted.inside_append_of_ne fun c hc => ?_
    simpa using ne_quote_of_isNameChar (hw.chars c hc)
  | mark _ hq => exact Quoted.inside_append_of_ne (by simpa using hq)

theorem Step.inLiteral_put (h : Step t disabled text p rest) (hps : sources ps = rest) (n : Nat) :
    inLiteral (put p ps) (size p.source + n) = inLiteral ps n := by
  cases p with
  | replaced s o =>
    show inLiteral (.replaced s o :: ps) (size s + n) = _
    rw [inLiteral, decide_eq_true (by omega), Bool.true_and, Nat.add_sub_cancel_left]
  | kept s =>
    show inLiteral (keep s ps) (size s + n) = _
    rcases keep_eq s ps with hkeep | ⟨r, ps', rfl, hkeep⟩
    · rw [hkeep, inLiteral, if_neg (by omega), Nat.add_sub_cancel_left]
    · have hr : r <+: rest := ⟨sources ps', hps⟩
      rw [hkeep, inLiteral, inLiteral, Text.size_append, h.inside_append hr, Nat.add_sub_add_left]
      by_cases hn : n < size r
      · rw [if_pos (by omega), if_pos hn]
      · rw [if_neg (by omega), if_neg hn]

theorem Steps.inLiteral_foldr_put (h : Steps t disabled text qs rest)
    (hps : scan t disabled rest = .ok ps) (n : Nat) :
    inLiteral (qs.foldr put ps) (size (sources qs) + n) = inLiteral ps n := by
  induction h with
  | refl => rw [List.foldr_nil, sources_nil, Text.size_nil, Nat.zero_add]
  | @cons text middle rest p qs hstep hsteps ih =>
    have hmiddle : scan t disabled middle = .ok (qs.foldr put ps) := by
      rw [hsteps.scan_eq, hps]
      rfl
    rw [List.foldr_cons, sources_cons, Text.size_append, Nat.add_assoc,
      hstep.inLiteral_put (scanned_of_scan hmiddle).source_eq, ih hps]

theorem inLiteral_keep_literal {r : Text} (hps : sources ps = (split r).2) {n : Nat}
    (hn : n < size ('"' :: (split r).1)) : inLiteral (keep ('"' :: (split r).1) ps) n = true := by
  have hinside : ∀ {v}, v <+: (split r).2 → Quoted.inside ('"' :: (split r).1 ++ v) n = true := by
    intro v hv
    rw [Quoted.inside_literal hv, decide_eq_true hn, Bool.true_or]
  rcases keep_eq ('"' :: (split r).1) ps with hkeep | ⟨v, ps', rfl, hkeep⟩
  · rw [hkeep, inLiteral, if_pos hn]
    have hnil := hinside List.nil_prefix
    rwa [List.append_nil] at hnil
  · rw [hkeep, inLiteral, Text.size_append, if_pos (by omega)]
    exact hinside ⟨sources ps', hps⟩

/-- A kept mark outside of literals is not a part of a longer step. -/
theorem Step.source_ne {c : Char} {x u : Text} {i : Nat} (h : Step t disabled text p rest)
    (hps : sources ps = rest) (hc : isNameChar c = false) (hx : x ≠ [])
    (hi : image? (put p ps) (size x) = some i) (hl : inLiteral (put p ps) (size x) = false) :
    p.source ≠ x ++ c :: u := by
  intro hsource
  have hlt : size x < size p.source := Text.size_lt_of_eq_append hsource
  cases h with
  | literal r =>
    cases (inLiteral_keep_literal hps hlt).symm.trans hl
  | @word w rest hw =>
    have hmem : c ∈ w := by
      rw [show w = x ++ c :: u from hsource]
      simp
    cases (hw.chars c hmem).symm.trans hc
  | use =>
    obtain ⟨⟨s, hs⟩, -⟩ := kept_of_image?_put hlt hi
    cases hs
  | mark =>
    have hlength := congrArg List.length hsource
    have := List.length_pos_iff.mpr hx
    simp only [Piece.source, List.length_append, List.length_cons, List.length_nil] at hlength
    omega

/-- **The scan takes a step at each mark that is kept and not in a literal.** -/
theorem exists_steps_of_image? {c : Char} {x w : Text} {i : Nat}
    (h : scan t disabled (x ++ c :: w) = .ok ps) (hc : isNameChar c = false)
    (hi : image? ps (size x) = some i) (hl : inLiteral ps (size x) = false) :
    ∃ qs ps', Steps t disabled (x ++ c :: w) qs (c :: w) ∧ sources qs = x ∧
      scan t disabled (c :: w) = .ok ps' ∧ ps = qs.foldr put ps' ∧ i = size (flatten qs) := by
  induction hn : x.length using Nat.strongRecOn generalizing x ps i with
  | ind n ih =>
    subst hn
    obtain ⟨p, rest, ps', hstep, hps', rfl⟩ := exists_step_of_scan h (by simp)
    have hsources := (scanned_of_scan hps').source_eq
    by_cases hx : x = []
    · subst hx
      have hzero := kept_of_image?_put (Text.size_pos hstep.source_ne_nil) hi
      exact ⟨[], _, .refl _, rfl, h, rfl, hzero.2⟩
    · -- The first step ends in front of the mark, because the mark is not a part of it.
      obtain ⟨u, rfl, rfl⟩ : ∃ u, x = p.source ++ u ∧ rest = u ++ c :: w := by
        rcases Text.cases_of_append_eq hstep.source_append with h | ⟨u, hsource, -⟩
        · exact h
        · exact absurd hsource (hstep.source_ne hsources hc hx hi hl)
      rw [Text.size_append, image?_put] at hi
      rw [Text.size_append, hstep.inLiteral_put hsources] at hl
      obtain ⟨i', hi', rfl⟩ := Option.map_eq_some_iff.mp hi
      have hlt : u.length < (p.source ++ u).length := by
        have := List.length_pos_iff.mpr hstep.source_ne_nil
        rw [List.length_append]
        omega
      obtain ⟨qs, ps, hsteps, hu, hscan, rfl, rfl⟩ := ih _ hlt hps' hi' hl rfl
      refine ⟨p :: qs, ps, .cons hstep hsteps, by rw [sources_cons, hu], hscan, rfl, ?_⟩
      exact (Text.size_append ..).symm

end Steps

/-! ### Excerpts -/

/-- **Replacing macros in a passage between two braces gives the passage between their
images.** -/
theorem expand_excerpt (t : Table) (r : Text) {ps : List Piece} (h : t.substitute r = .ok ps)
    {a b i j : Nat} (hab : a < b)
    (ha : (Text.bytes r)[a]? = some '\x7b'.val.toUInt8)
    (hb : (Text.bytes r)[b - 1]? = some '\x7d'.val.toUInt8)
    (hi : image? ps a = some i) (hj : image? ps (b - 1) = some j)
    (hla : inLiteral ps a = false) (hlb : inLiteral ps (b - 1) = false) :
    ∃ body u, Text.slice? a b r = some body ∧ t.expand body = .ok u ∧
      Text.slice? i (j + 1) (flatten ps) = some u := by
  obtain ⟨x, w, rfl, rfl⟩ := Text.exists_of_getElem?_bytes (by decide) ha
  obtain ⟨qs, ps₁, hsteps, rfl, hscan, rfl, rfl⟩ := exists_steps_of_image? h (by decide) hi hla
  -- The scan takes a step at the first brace; from there on, the other one is `n` bytes away.
  obtain ⟨n, hn⟩ : ∃ n, b - 1 = size (sources qs) + n := ⟨b - 1 - size (sources qs), by omega⟩
  rw [hn, Text.bytes_append, List.getElem?_append_right (by rw [Text.length_bytes]; omega),
    Text.length_bytes, Nat.add_sub_cancel_left] at hb
  rw [hn, image?_foldr_put] at hj
  rw [hn, hsteps.inLiteral_foldr_put hscan] at hlb
  obtain ⟨y, z, hw, rfl⟩ := Text.exists_of_getElem?_bytes (by decide) hb
  obtain ⟨k, hk, rfl⟩ := Option.map_eq_some_iff.mp hj
  rw [hw] at hscan ⊢
  obtain ⟨qs', ps₂, hsteps', rfl, hscan', rfl, rfl⟩ :=
    exists_steps_of_image? hscan (by decide) hk hlb
  have hmark : Step t [] ('\x7d' :: z) (.kept ['\x7d']) z := .mark z (by decide) (by decide)
  rw [hmark.scan_eq] at hscan'
  obtain ⟨ps₃, -, rfl⟩ := map_eq_ok hscan'
  have hbody := (hsteps'.concat hmark).expandUnder_sources
  have hsources : sources (qs' ++ [.kept ['\x7d']]) = sources qs' ++ ['\x7d'] := by
    simp [Piece.source]
  have hflatten : flatten (qs' ++ [.kept ['\x7d']]) = flatten qs' ++ ['\x7d'] := by
    simp [flatten, Piece.output]
  have hsize : size ['\x7d'] = 1 := by decide
  rw [hsources, hflatten] at hbody
  refine ⟨_, _, ?_, hbody, ?_⟩
  · have hslice := Text.slice?_append (sources qs) (sources qs' ++ ['\x7d']) z
    rw [Text.size_append, hsize, ← Nat.add_assoc, ← hn, Nat.sub_add_cancel (by omega)] at hslice
    simpa using hslice
  · have hslice := Text.slice?_append (flatten qs) (flatten qs' ++ ['\x7d']) (flatten ps₃)
    rw [Text.size_append, hsize, ← Nat.add_assoc] at hslice
    rw [flatten_foldr_put, flatten_foldr_put, flatten_put]
    simpa [Piece.output] using hslice

/-- A macro that puts its argument into brackets. -/
def bracketMacro : Macro := ⟨"F", some ["x"], false, [.text ['['], .arg 0, .text [']']]⟩

/-- The macro, and one that is replaced by its name. -/
def bracketTable : Table := ⟨[bracketMacro, ⟨"G", none, false, [.text ['F']]⟩]⟩

/-- The name that a replacement ends in takes its arguments from the text. -/
theorem step_bracketTable :
    Step bracketTable [] "G(1)\"\x7d\"F\x7d(2)".toList
      (.replaced "G(1)".toList "[1]".toList) "\"\x7d\"F\x7d(2)".toList := by
  have hword : IsWord ['G'] "(1)\"\x7d\"F\x7d(2)".toList :=
    ⟨by decide, by rintro c (_ | ⟨_, ⟨⟩⟩); decide, by rintro c ⟨⟩; decide⟩
  have hcollect : collect? 0 "1)\"\x7d\"F\x7d(2)".toList =
      some ([['1']], "\"\x7d\"F\x7d(2)".toList) := by cbv
  have hargs : ReadsArgs bracketMacro "(1)\"\x7d\"F\x7d(2)".toList [['1']]
      "\"\x7d\"F\x7d(2)".toList := .some rfl rfl hcollect rfl
  let m : Enabled bracketTable [] := ⟨bracketMacro, by decide, by decide⟩
  have hexpanded : [['1']].mapM (bracketTable.expandUnder []) = .ok [['1']] := by cbv
  have hbody : scan bracketTable ["F"] "[1]".toList = .ok [.kept "[1]".toList] := by cbv
  have hused : Used m "(1)\"\x7d\"F\x7d(2)".toList
      ("[1]".toList, "\"\x7d\"F\x7d(2)".toList) := .intro hargs hexpanded hbody (by cbv)
  have hresume : (Task.resume "G" ['F'] "(1)\"\x7d\"F\x7d(2)".toList :
      Task bracketTable []).answer = .ok ("[1]".toList, "\"\x7d\"F\x7d(2)".toList) :=
    answer_resume_eq_ok_iff.mpr (.inr ⟨m, _, _, by cbv, rfl, by decide, hused, by cbv⟩)
  let n : Enabled bracketTable [] := ⟨⟨"G", none, false, [.text ['F']]⟩, by decide, by decide⟩
  have hname : scan bracketTable ["G"] ['F'] = .ok [.kept ['F']] := by cbv
  have hused' : Used n ("(1)".toList ++ "\"\x7d\"F\x7d(2)".toList)
      ("[1]".toList, "\"\x7d\"F\x7d(2)".toList) := .intro (.none rfl) rfl hname hresume
  exact .use hword (by cbv) hused'

/-- The brace in the literal does not count, and what follows the last one opens no arguments. -/
theorem expand_excerpt_bracketTable :
    let ps : List Piece := [.kept ";\x7b".toList, .replaced "G(1)".toList "[1]".toList,
      .kept "\"\x7d\"F\x7d(2)".toList]
    bracketTable.substitute ";\x7bG(1)\"\x7d\"F\x7d(2)".toList = .ok ps ∧
      image? ps 1 = some 1 ∧ image? ps 10 = some 9 ∧ inLiteral ps 7 = true ∧
      ∃ body u, Text.slice? 1 11 ";\x7bG(1)\"\x7d\"F\x7d(2)".toList = some body ∧
        bracketTable.expand body = .ok u ∧ Text.slice? 1 10 (flatten ps) = some u := by
  intro ps
  have hrest : scan bracketTable [] "\"\x7d\"F\x7d(2)".toList =
      .ok [.kept "\"\x7d\"F\x7d(2)".toList] := by cbv
  have hfirst : Step bracketTable [] ";\x7bG(1)\"\x7d\"F\x7d(2)".toList (.kept [';'])
      "\x7bG(1)\"\x7d\"F\x7d(2)".toList := .mark _ (by decide) (by decide)
  have hsecond : Step bracketTable [] "\x7bG(1)\"\x7d\"F\x7d(2)".toList (.kept ['\x7b'])
      "G(1)\"\x7d\"F\x7d(2)".toList := .mark _ (by decide) (by decide)
  have hps : bracketTable.substitute ";\x7bG(1)\"\x7d\"F\x7d(2)".toList = .ok ps := by
    rw [Table.substitute, hfirst.scan_eq, hsecond.scan_eq, step_bracketTable.scan_eq, hrest]
    rfl
  refine ⟨hps, by decide, by decide, by cbv, ?_⟩
  exact expand_excerpt bracketTable _ hps (by decide) (by decide) (by decide) (by decide)
    (by decide) (by cbv) (by cbv)

end Macro

end PixelWrap
