import Mathlib.Tactic.Common
import PixelWrap.Proofs.Replacement

/-!
# What the pieces of a text come from

Cutting a text into pieces loses nothing: the sources of the pieces make up the text.
A replaced piece starts with the name of the macro that was used there, and that name
is a word of the text as a whole.

## Main definitions

* `Macro.Scanned`: how a text is cut into pieces, one rule for each kind of text.
* `Macro.Closes`: reading stops right after a name or after a closing parenthesis.
* `Macro.NameBetween`: a macro is named, as a whole word, after some text.
* `Macro.NamesReplaced`: that holds of each replaced piece.

## Main results

* `Macro.scanned_of_scan`: the pieces that `scan` gives follow the rules.
* `Macro.Scanned.source_eq`: the sources of the pieces make up the text.
* `Macro.Scanned.namesReplaced`: a replaced piece starts with the name of a macro.
-/

namespace PixelWrap.Macro

variable {t : Table} {disabled : List String}

/-! ### How a text is cut -/

/-- How a text is cut into pieces when nothing fails. -/
inductive Scanned (t : Table) (disabled : List String) : Text → List Piece → Prop
  /-- At the end there are no pieces. -/
  | nil : Scanned t disabled [] []
  /-- A string literal is kept. -/
  | literal {r : Text} {ps : List Piece} : Scanned t disabled (Quoted.split r).2 ps →
      Scanned t disabled ('"' :: r) (keep ('"' :: (Quoted.split r).1) ps)
  /-- A word is kept. -/
  | word {c : Char} {r : Text} {ps : List Piece} : isNameChar c = true →
      Scanned t disabled (r.dropWhile isNameChar) ps →
      Scanned t disabled (c :: r) (keep (c :: r.takeWhile isNameChar) ps)
  /-- A use of a macro is replaced. -/
  | use {c : Char} {r : Text} {ps : List Piece} (m : Enabled t disabled)
      (o : { o : Outcome (r.dropWhile isNameChar) //
        m.val.isFunctionLike → o.after.length < (r.dropWhile isNameChar).length }) :
      isNameChar c = true → t.enabled? disabled (c :: r.takeWhile isNameChar) = some m →
      invoke t disabled m (r.dropWhile isNameChar) = .ok (some o) →
      Scanned t disabled o.val.after ps →
      Scanned t disabled (c :: r)
        (.replaced ((c :: r).take (r.length + 1 - o.val.after.length)) o.val.output :: ps)
  /-- Any other character is kept. -/
  | mark {c : Char} {r : Text} {ps : List Piece} : isNameChar c = false →
      Scanned t disabled r ps → Scanned t disabled (c :: r) (keep [c] ps)

theorem map_eq_ok {ε α β : Type} {x : Except ε α} {f : α → β} {b : β} (h : x.map f = .ok b) :
    ∃ a, x = .ok a ∧ b = f a := by
  cases x with
  | error e => cases h
  | ok a => cases h; exact ⟨a, rfl, rfl⟩

/-- **The pieces that a scan gives follow the rules.** -/
theorem scanned_of_scan {text : Text} {ps : List Piece} (h : scan t disabled text = .ok ps) :
    Scanned t disabled text ps := by
  induction hn : text.length using Nat.strongRecOn generalizing text ps with
  | ind n ih =>
    subst hn
    cases text with
    | nil =>
      rw [scan] at h
      cases h
      exact .nil
    | cons c r =>
      have further : ∀ {s : Text} {ps : List Piece}, s <:+ r → scan t disabled s = .ok ps →
          Scanned t disabled s ps := fun hs h => ih _ (Nat.lt_succ_of_le hs.length_le) h rfl
      have hw : r.dropWhile isNameChar <:+ r := List.dropWhile_suffix _
      rw [scan] at h
      split at h
      · next hc =>
        cases eq_of_beq hc
        obtain ⟨ps, hs, rfl⟩ := map_eq_ok h
        exact .literal (further (Quoted.split_snd_suffix r) hs)
      · split at h
        · next hc =>
          cases he : t.enabled? disabled (c :: r.takeWhile isNameChar) with
          | none =>
            rw [he] at h
            obtain ⟨ps, hs, rfl⟩ := map_eq_ok h
            exact .word hc (further hw hs)
          | some m =>
            rw [he] at h
            simp only at h
            cases hi : invoke t disabled m (r.dropWhile isNameChar) with
            | error e => rw [hi] at h; cases h
            | ok o =>
              rw [hi] at h
              cases o with
              | none =>
                obtain ⟨ps, hs, rfl⟩ := map_eq_ok h
                exact .word hc (further hw hs)
              | some o =>
                obtain ⟨ps, hs, rfl⟩ := map_eq_ok h
                exact .use m o hc he hi (further (o.val.isSuffix.trans hw) hs)
        · next hc =>
          obtain ⟨ps, hs, rfl⟩ := map_eq_ok h
          exact .mark (by simpa using hc) (further List.suffix_rfl hs)

/-! ### Nothing is lost -/

/-- The text that the pieces were cut from. -/
def sources (ps : List Piece) : Text := ps.flatMap Piece.source

@[simp] theorem sources_nil : sources [] = [] := rfl

@[simp] theorem sources_cons (p : Piece) (ps : List Piece) :
    sources (p :: ps) = p.source ++ sources ps := rfl

@[simp] theorem sources_append (ps qs : List Piece) :
    sources (ps ++ qs) = sources ps ++ sources qs := List.flatMap_append

theorem sources_keep (s : Text) (ps : List Piece) : sources (keep s ps) = s ++ sources ps := by
  unfold keep
  split
  · simp [Piece.source]
  · rfl

theorem flatten_keep (s : Text) (ps : List Piece) : flatten (keep s ps) = s ++ flatten ps := by
  unfold keep
  split
  · exact List.append_assoc ..
  · rfl

/-- What a use takes up and what follows it are the text. -/
theorem take_append_after {c : Char} {r after : Text} (h : after <:+ r) :
    (c :: r).take (r.length + 1 - after.length) ++ after = c :: r :=
  List.suffix_iff_eq_append.mp (h.trans (List.suffix_cons c r))

/-- **The sources of the pieces make up the text.** -/
theorem Scanned.source_eq {text : Text} {ps : List Piece} (h : Scanned t disabled text ps) :
    sources ps = text := by
  induction h with
  | nil => rfl
  | literal _ ih => rw [sources_keep, ih, List.cons_append, Quoted.split_append]
  | word _ _ ih => rw [sources_keep, ih, List.cons_append, List.takeWhile_append_dropWhile]
  | use m o _ _ _ _ ih =>
    rw [sources_cons, ih]
    exact take_append_after (o.val.isSuffix.trans (List.dropWhile_suffix _))
  | mark _ _ ih => rw [sources_keep, ih]; rfl

/-! ### Where reading goes on after a use -/

/-- Reading goes on where it was, or right after a closing parenthesis. -/
def Closes (rest after : Text) : Prop := after = rest ∨ ∃ s, rest = s ++ ')' :: after

theorem Closes.trans {a b c : Text} (h : Closes a b) (h' : Closes b c) : Closes a c := by
  rcases h with rfl | ⟨s, rfl⟩
  · exact h'
  · rcases h' with rfl | ⟨s', rfl⟩
    · exact .inr ⟨s, rfl⟩
    · exact .inr ⟨s ++ ')' :: s', by simp⟩

/-- The arguments end with a closing parenthesis. -/
theorem exists_of_collect? {depth : Nat} {text : Text} {p : List Text × Text}
    (h : collect? depth text = some p) : ∃ s, text = s ++ ')' :: p.2 := by
  -- In every recursive case some text is put in front of what the rest gives.
  have step : ∀ {r : Text} {x : Option (List Text × Text)} {s : Text} {f : List Text × Text → _}
      {p : List Text × Text}, (∀ q, x = some q → ∃ s, r = s ++ ')' :: q.2) →
      (∀ q, (f q).2 = q.2) → x.map f = some p → ∃ s', s ++ r = s' ++ ')' :: p.2 := by
    intro r x s f p ih hf hp
    obtain ⟨q, hq, rfl⟩ := Option.map_eq_some_iff.mp hp
    obtain ⟨s', rfl⟩ := ih q hq
    exact ⟨s ++ s', by rw [hf, List.append_assoc]⟩
  have hfirst : ∀ (s : Text) (q : List Text × Text), (prependFirst s q).2 = q.2 := by
    rintro s ⟨_ | ⟨a, as⟩, rest⟩ <;> rfl
  fun_induction collect? depth text generalizing p with
  | case1 => cases h
  | case2 depth c r _ ih =>
    have := step (s := c :: (Quoted.split r).1) (fun _ => ih) (hfirst _) h
    rwa [List.cons_append, Quoted.split_append] at this
  | case3 depth c r _ _ ih => exact step (s := [c]) (fun _ => ih) (hfirst _) h
  | case4 c r _ _ hc =>
    cases h
    cases eq_of_beq hc
    exact ⟨[], rfl⟩
  | case5 c r _ _ _ d ih => exact step (s := [c]) (fun _ => ih) (hfirst _) h
  | case6 depth c r _ _ _ _ ih =>
    exact step (s := [c]) (f := fun q => ([] :: q.1, q.2)) (fun _ => ih) (fun _ => rfl) h
  | case7 depth c r _ _ _ _ ih => exact step (s := [c]) (fun _ => ih) (hfirst _) h

theorem closes_of_readCall {m : Macro} {params : List String} {rest : Text} {call : Call rest}
    (h : readCall m params rest = .ok (some call)) : Closes rest call.after := by
  unfold readCall at h
  split at h
  · cases h
  · next inner ho =>
    split at h
    · cases h
    · next pieces after hc =>
      split at h
      · cases h
      · obtain ⟨s, hs⟩ := openParen?_suffix ho
        obtain ⟨s', hs'⟩ := exists_of_collect? hc
        have hrest : rest = s ++ '(' :: s' ++ ')' :: after := by
          rw [← hs, hs']
          simp
        cases h
        exact .inr ⟨_, hrest⟩

/-- After a replacement text has been read, it is resumed. -/
theorem resume_of_replaceAnswer {m : Macro} {args expanded : List Text} {after output rest : Text}
    (h : replaceAnswer t disabled m args expanded after = .ok (some (output, rest))) :
    ∃ text o, resume t disabled m.name text after = .ok o ∧ o.after = rest := by
  unfold replaceAnswer at h
  cases hs : scan t (m.name :: disabled) (render args expanded m.body) with
  | error e => rw [hs] at h; cases h
  | ok pieces =>
    rw [hs] at h
    simp only [Except.mapError, bind, Except.bind] at h
    cases hr : resume t disabled m.name (flatten pieces) after with
    | error e => rw [hr] at h; cases h
    | ok o =>
      rw [hr] at h
      cases h
      exact ⟨_, o, hr, rfl⟩

/-- A use goes on at the same place as the text that it is resumed in front of. -/
theorem resume_of_invoke {m : Enabled t disabled} {rest : Text}
    {o : { o : Outcome rest // m.val.isFunctionLike → o.after.length < rest.length }}
    (h : invoke t disabled m rest = .ok (some o)) :
    ∃ middle, Closes rest middle ∧
      (m.val.isFunctionLike → middle.length < rest.length) ∧
      ∃ text o', resume t disabled m.val.name text middle = .ok o' ∧ o'.after = o.val.after := by
  cases hp : m.val.params with
  | none =>
    have hi := invoke_of_params_none rest hp
    rw [h] at hi
    exact ⟨rest, .inl rfl, by simp [isFunctionLike, hp], resume_of_replaceAnswer hi.symm⟩
  | some params =>
    have hi := invoke_of_params_some rest hp
    rw [h] at hi
    cases hc : readCall m.val params rest with
    | error e => rw [hc] at hi; cases hi
    | ok call =>
      rw [hc] at hi
      cases call with
      | none => cases hi
      | some call =>
        simp only at hi
        cases he : call.args.mapM fun a =>
            ((scan t disabled a).map flatten).mapError Failure.error with
        | error e => rw [he] at hi; cases hi
        | ok expanded =>
          rw [he] at hi
          exact ⟨call.after, closes_of_readCall hc, fun _ => call.shorter,
            resume_of_replaceAnswer hi.symm⟩

/-- Resuming stops where it started or after a closing parenthesis. -/
theorem closes_of_resume {origin : String} {output rest : Text} {o : Outcome rest}
    (h : resume t disabled origin output rest = .ok o) : Closes rest o.after := by
  induction hn : rest.length using Nat.strongRecOn generalizing origin output rest with
  | ind n ih =>
    subst hn
    rw [resume] at h
    split at h
    · cases h; exact .inl rfl
    · next m _ =>
      split at h
      · next hm =>
        simp only [Bool.and_eq_true] at hm
        split at h
        · cases h
        · cases h; exact .inl rfl
        · next tail ho hi =>
          -- The use in between has parameters, so that it takes up some text.
          obtain ⟨middle, hc, hl, text, o', hr, ha⟩ := resume_of_invoke hi
          have htail : Closes rest tail.after := by
            have := ih middle.length (hl hm.1) hr rfl
            rw [ha] at this
            exact hc.trans this
          cases hr' : resume t disabled origin (beforeTrailingName output ++ tail.output)
              tail.after with
          | error e => rw [hr'] at h; cases h
          | ok o₂ =>
            rw [hr'] at h
            cases h
            exact htail.trans (ih tail.after.length (ho hm.1) hr' rfl)
      · cases h; exact .inl rfl

/-- A use stops right after the name or after a closing parenthesis. -/
theorem closes_of_invoke {m : Enabled t disabled} {rest : Text}
    {o : { o : Outcome rest // m.val.isFunctionLike → o.after.length < rest.length }}
    (h : invoke t disabled m rest = .ok (some o)) : Closes rest o.val.after := by
  obtain ⟨middle, hc, -, text, o', hr, ha⟩ := resume_of_invoke h
  rw [← ha]
  exact hc.trans (closes_of_resume hr)

/-- A use takes up the name alone, or it ends with a closing parenthesis. -/
theorem source_of_closes (c : Char) {r after : Text} (h : Closes (r.dropWhile isNameChar) after) :
    after = r.dropWhile isNameChar ∧
        (c :: r).take (r.length + 1 - after.length) = c :: r.takeWhile isNameChar ∨
      ∃ s, (c :: r).take (r.length + 1 - after.length) = s ++ [')'] := by
  have hafter : after <:+ r := by
    rcases h with rfl | ⟨s, hs⟩
    · exact List.dropWhile_suffix _
    · refine List.IsSuffix.trans ⟨s ++ [')'], ?_⟩ (List.dropWhile_suffix isNameChar)
      rw [hs, List.append_assoc]
      rfl
  have htext := take_append_after (c := c) hafter
  rcases h with rfl | ⟨s, hs⟩
  · refine .inl ⟨rfl, (List.append_left_inj (r.dropWhile isNameChar)).mp ?_⟩
    rw [htext, List.cons_append, List.takeWhile_append_dropWhile]
  · refine .inr ⟨c :: r.takeWhile isNameChar ++ s, (List.append_left_inj after).mp ?_⟩
    rw [htext]
    conv_lhs => rw [← List.takeWhile_append_dropWhile (p := isNameChar) (l := r), hs]
    simp

/-! ### Names in front of replaced pieces -/

/-- Whether the text starts with a character of a name. -/
def startsInName (s : Text) : Bool := s.head?.any isNameChar

/-- Whether the text ends in a character of a name. -/
def endsInName (s : Text) : Bool := s.getLast?.any isNameChar

theorem endsInName_append {s s' : Text} (h : s' ≠ []) : endsInName (s ++ s') = endsInName s' := by
  rw [endsInName, endsInName, List.getLast?_append, List.getLast?_eq_some_getLast h]
  rfl

theorem endsInName_concat (t : Text) (c : Char) : endsInName (t ++ [c]) = isNameChar c := by
  simp [endsInName]

theorem endsInName_of_append {s t : Text} (h : endsInName (s ++ t) = false) :
    endsInName t = false := by
  cases t with
  | nil => rfl
  | cons c t => rwa [endsInName_append (List.cons_ne_nil c t)] at h

/-- What stands in front of nothing decides on its own. -/
theorem endsInName_append_of {s t : Text} (hs : t = [] → endsInName s = false)
    (ht : endsInName t = false) : endsInName (s ++ t) = false := by
  by_cases h : t = []
  · rw [h, List.append_nil]
    exact hs h
  · rw [endsInName_append h]
    exact ht

theorem startsInName_cons (c : Char) (t : Text) : startsInName (c :: t) = isNameChar c := rfl

theorem startsInName_append_of {s t : Text} (hs : startsInName s = false)
    (ht : s = [] → startsInName t = false) : startsInName (s ++ t) = false := by
  cases s with
  | nil => exact ht rfl
  | cons c s => exact hs

theorem startsInName_dropWhile (s : Text) : startsInName (s.dropWhile isNameChar) = false := by
  have h := List.head?_dropWhile_not isNameChar s
  rw [startsInName]
  cases hd : (s.dropWhile isNameChar).head? with
  | none => rfl
  | some c =>
    rw [hd] at h
    simpa using h

/-- A literal ends in its quote, or else no name follows it. -/
theorem getLast?_split (r : Text) :
    startsInName (Quoted.split r).2 = false ∨ (Quoted.split r).1.getLast? = some '"' := by
  fun_induction Quoted.split r with
  | case1 => exact .inl rfl
  | case2 c r ih =>
    rcases ih with h | h
    · exact .inl h
    · refine .inr ?_
      simp [List.getLast?_cons, h]
  | case3 c r _ hc =>
    cases eq_of_beq hc
    exact .inr rfl
  | case4 c r _ _ hc =>
    cases eq_of_beq hc
    exact .inl (show isNameChar '\n' = false by decide)
  | case5 c r _ _ _ ih =>
    rcases ih with h | h
    · exact .inl h
    · refine .inr ?_
      simp [List.getLast?_cons, h]

/-- Where a name follows a literal, the literal ends in its quote. -/
theorem endsInName_literal {r : Text} (h : startsInName (Quoted.split r).2 = true) :
    endsInName ('"' :: (Quoted.split r).1) = false := by
  rcases getLast?_split r with hstart | hlast
  · rw [hstart] at h
    cases h
  · rw [endsInName, List.getLast?_cons, hlast]
    rfl

/-- Where a name follows a use, the use ends in a parenthesis. -/
theorem endsInName_use {c : Char} {r after : Text} (hafter : Closes (r.dropWhile isNameChar) after)
    (h : startsInName after = true) :
    endsInName ((c :: r).take (r.length + 1 - after.length)) = false := by
  rcases source_of_closes c hafter with ⟨rfl, -⟩ | ⟨s, hs⟩
  · rw [startsInName_dropWhile] at h
    cases h
  · rw [hs, endsInName_concat]
    rfl

/-- Between two texts stands the name of a macro that may be replaced, and the name is
a word as a whole. -/
structure NameBetween (t : Table) (disabled : List String) (before word after : Text) : Prop where
  enabled : (t.enabled? disabled word).isSome = true
  left : endsInName before = false
  right : startsInName after = false

theorem isDefined_of_enabled? {word : Text} (h : (t.enabled? disabled word).isSome = true) :
    Text.isName word = true ∧ t.isDefined (String.ofList word) = true := by
  unfold Table.enabled? at h
  split at h
  · cases h
  · next m hf =>
    split at h
    · next hd => exact ⟨hd.1, by rw [Table.isDefined, hf]; rfl⟩
    · cases h

/-- Keeping text puts it in front of the pieces, as a part of the first one or before it. -/
theorem exists_of_keep_eq_append {s : Text} {p : Piece} {ps a b : List Piece}
    (h : keep s ps = a ++ p :: b) :
    a = [] ∧ (∃ r, p = .kept r) ∨ ∃ a', ps = a' ++ p :: b ∧ sources a = s ++ sources a' := by
  unfold keep at h
  split at h
  · next r ps =>
    cases a with
    | nil =>
      obtain ⟨rfl, -⟩ := List.cons.inj h
      exact .inl ⟨rfl, _, rfl⟩
    | cons q a =>
      obtain ⟨rfl, rfl⟩ := List.cons.inj h
      exact .inr ⟨.kept r :: a, rfl, by simp [Piece.source]⟩
  · cases a with
    | nil =>
      obtain ⟨rfl, -⟩ := List.cons.inj h
      exact .inl ⟨rfl, _, rfl⟩
    | cons q a =>
      obtain ⟨rfl, rfl⟩ := List.cons.inj h
      exact .inr ⟨a, rfl, rfl⟩

/-- Keeping text puts it in front of what stands before a replaced piece. -/
theorem exists_of_keep_eq {s x o : Text} {ps a b : List Piece}
    (h : keep s ps = a ++ .replaced x o :: b) :
    ∃ a', ps = a' ++ .replaced x o :: b ∧ sources a = s ++ sources a' := by
  rcases exists_of_keep_eq_append h with ⟨-, r, hr⟩ | h
  · cases hr
  · exact h

/-- Each replaced piece of a text starts with the name of a macro, which is a word of the
text as a whole.  Where nothing stands in front of the piece, the text starts with it. -/
def NamesReplaced (t : Table) (disabled : List String) (text : Text) (ps : List Piece) : Prop :=
  ∀ {x o : Text} {a b : List Piece}, ps = a ++ .replaced x o :: b →
    (∃ word after, x ++ sources b = word ++ after ∧
      NameBetween t disabled (sources a) word after) ∧
    (sources a = [] → startsInName text = true)

theorem NamesReplaced.keep {s rest text : Text} {ps : List Piece}
    (h : NamesReplaced t disabled rest ps) (hs : s ≠ [])
    (hend : startsInName rest = true → endsInName s = false) :
    NamesReplaced t disabled text (keep s ps) := by
  intro x o a b hp
  obtain ⟨a', rfl, ha⟩ := exists_of_keep_eq hp
  obtain ⟨⟨word, after, hw, hn⟩, hstart⟩ := h rfl
  refine ⟨⟨word, after, hw, hn.enabled, ?_, hn.right⟩, by simp [ha, hs]⟩
  rw [ha]
  exact endsInName_append_of (fun hnil => hend (hstart hnil)) hn.left

/-- **A replaced piece starts with the name of a macro.** -/
theorem Scanned.namesReplaced {text : Text} {ps : List Piece} (h : Scanned t disabled text ps) :
    NamesReplaced t disabled text ps := by
  induction h with
  | nil =>
    intro x o a b hp
    cases a <;> cases hp
  | literal _ ih => exact ih.keep (List.cons_ne_nil _ _) endsInName_literal
  | @word c r ps _ _ ih =>
    refine ih.keep (List.cons_ne_nil _ _) fun hstart => ?_
    rw [startsInName_dropWhile] at hstart
    cases hstart
  | @use c r ps m out hc he hi hsc ih =>
    intro x o a b hp
    have hafter := out.val.isSuffix.trans (List.dropWhile_suffix isNameChar)
    have htext := take_append_after (c := c) hafter
    cases a with
    | nil =>
      obtain ⟨hx, rfl⟩ := List.cons.inj hp
      cases hx
      refine ⟨⟨c :: r.takeWhile isNameChar, r.dropWhile isNameChar, ?_, ?_, rfl, ?_⟩, fun _ => ?_⟩
      · rw [hsc.source_eq, htext, List.cons_append, List.takeWhile_append_dropWhile]
      · rw [he]; rfl
      · exact startsInName_dropWhile r
      · simpa [startsInName] using hc
    | cons p a =>
      obtain ⟨rfl, rfl⟩ := List.cons.inj hp
      obtain ⟨⟨word, after, hw, hn⟩, hs⟩ := ih rfl
      refine ⟨⟨word, after, hw, hn.enabled, ?_, hn.right⟩, fun _ => ?_⟩
      swap
      · simpa [startsInName] using hc
      refine endsInName_append_of (fun hnil => ?_) hn.left
      exact endsInName_use (closes_of_invoke hi) (hs hnil)
  | @mark c r ps hc _ ih =>
    exact ih.keep (List.cons_ne_nil _ _) fun _ => by simpa [endsInName] using hc

end PixelWrap.Macro
