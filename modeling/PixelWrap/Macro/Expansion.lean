import PixelWrap.Macro.Arguments

/-!
# Replacing macros in a text

A text is read from left to right.  A word that names a macro is replaced by the
macro's replacement text with the arguments in place, and that text is read again
with the macro disabled, so that no macro is replaced inside its own replacement.
If the outcome ends in the name of a macro with parameters, the arguments of that
macro are taken from the text that follows.

The three functions below call each other.  They end because each call drops
`(enabled macros, weight of the text, length of the text, kind of call)` in
lexicographic order: reading a replacement disables a macro, an argument weighs less
than the text it was read from, and what is left to read is a shorter suffix.

## Main definitions

* `Macro.Piece`: a stretch of the text, kept or replaced.
* `Macro.scan`: cuts a text into pieces.
* `Macro.invoke`: replaces one use of a macro.
* `Macro.resume`: goes on while the outcome ends in the name of a macro.
* `Macro.Table.substitute`, `Macro.Table.expand`: replace all macros of a table.

## Main results

* `Macro.enabledCount_cons_lt`: disabling an enabled macro leaves fewer of them.
-/

namespace PixelWrap.Macro

/-! ### Enabled macros -/

/-- A macro of the table that may be replaced here. -/
abbrev Enabled (t : Table) (disabled : List String) :=
  { m : Macro // m ∈ t.entries ∧ m.name ∉ disabled }

/-- The macro that a word names, if it may be replaced here. -/
def Table.enabled? (t : Table) (disabled : List String) (word : Text) :
    Option (Enabled t disabled) :=
  match h : t.find? (String.ofList word) with
  | none => none
  | some m =>
    if hd : Text.isName word ∧ m.name ∉ disabled then
      some ⟨m, (Table.find?_eq_some h).1, hd.2⟩
    else none

/-- The number of macros of the table that may be replaced. -/
def enabledCount (t : Table) (disabled : List String) : Nat :=
  (t.entries.filter fun m => m.name ∉ disabled).length

/-- **Disabling a macro that is enabled leaves fewer enabled macros.** -/
theorem enabledCount_cons_lt {t : Table} {disabled : List String} (m : Enabled t disabled) :
    enabledCount t (m.val.name :: disabled) < enabledCount t disabled := by
  have h : t.entries.filter (fun k => k.name ∉ m.val.name :: disabled) =
      (t.entries.filter fun k => k.name ∉ disabled).filter fun k => k.name ≠ m.val.name := by
    rw [List.filter_filter]
    congr 1
    funext k
    by_cases h₁ : k.name = m.val.name <;> by_cases h₂ : k.name ∈ disabled <;> simp [h₁, h₂]
  rw [enabledCount, enabledCount, h]
  refine List.length_filter_lt_length_iff_exists.mpr ⟨m.val, ?_, by simp⟩
  simp [m.property.1, m.property.2]

/-! ### Pieces of a text -/

/-- A stretch of a text in which macros have been replaced. -/
inductive Piece where
  /-- Text without a use of a macro. -/
  | kept (source : Text)
  /-- The use of a macro and what it was replaced by. -/
  | replaced (source output : Text)
  deriving DecidableEq, Repr

/-- What the piece was before macros were replaced. -/
def Piece.source : Piece → Text
  | .kept s => s
  | .replaced s _ => s

/-- What the piece is after macros have been replaced. -/
def Piece.output : Piece → Text
  | .kept s => s
  | .replaced _ o => o

/-- The text that the pieces make up after macros have been replaced. -/
def flatten (ps : List Piece) : Text := ps.flatMap Piece.output

/-- Puts kept text in front of the pieces, as part of the first one if that is kept
as well. -/
def keep (s : Text) : List Piece → List Piece
  | .kept r :: ps => .kept (s ++ r) :: ps
  | ps => .kept s :: ps

/-- Why a text cannot be scanned, and the text from the name of the offending use
on. -/
structure Failure where
  /-- What is wrong. -/
  error : Error
  /-- The part of the text that starts with the name. -/
  rest : Text
  deriving DecidableEq, Repr

/-! ### Names at the end of a replacement -/

/-- The name that a text ends with, white space aside: of the last run of letters,
digits and underscores the part from the first letter or underscore on. -/
def trailingName (t : Text) : Text :=
  ((Text.trimEnd t).reverse.takeWhile isNameChar).reverse.dropWhile (!isNameStart ·)

/-- The text in front of the name that it ends with. -/
def beforeTrailingName (t : Text) : Text :=
  (Text.trimEnd t).take ((Text.trimEnd t).length - (trailingName t).length)

/-! ### Replacing -/

/-- The outcome of replacing a use: its replacement, and where reading goes on in
the text after the name. -/
structure Outcome (rest : Text) where
  /-- The replacement. -/
  output : Text
  /-- The text that is left to read. -/
  after : Text
  /-- It ends the text after the name. -/
  isSuffix : after <:+ rest

/-- The order of `(weight, length, kind)` drops on a shorter suffix. -/
theorem lex_of_suffix {s t : Text} (h : s <:+ t) (hl : s.length < t.length) (i j : Nat) :
    Prod.Lex (· < ·) (Prod.Lex (· < ·) (· < ·)) (weight s, s.length, i)
      (weight t, t.length, j) :=
  Prod.Lex.right' _ (weight_le_of_suffix h) (Prod.Lex.left _ _ hl)

mutual

/-- Cuts a text into kept and replaced pieces.  Words are maximal runs of letters,
digits and underscores, and string literals are kept as they stand. -/
def scan (t : Table) (disabled : List String) : Text → Except Failure (List Piece)
  | [] => .ok []
  | c :: r =>
    if c == '"' then
      (scan t disabled (Quoted.split r).2).map (keep (c :: (Quoted.split r).1))
    else if isNameChar c then
      match t.enabled? disabled (c :: r.takeWhile isNameChar) with
      | none => (scan t disabled (r.dropWhile isNameChar)).map (keep (c :: r.takeWhile isNameChar))
      | some m =>
        match invoke t disabled m (r.dropWhile isNameChar) with
        | .error e => .error ⟨e, c :: r⟩
        | .ok none =>
          (scan t disabled (r.dropWhile isNameChar)).map (keep (c :: r.takeWhile isNameChar))
        | .ok (some ⟨o, _⟩) =>
          (scan t disabled o.after).map
            (.replaced ((c :: r).take (r.length + 1 - o.after.length)) o.output :: ·)
    else (scan t disabled r).map (keep [c])
termination_by text => (enabledCount t disabled, weight text, text.length, 0)
decreasing_by
  all_goals refine Prod.Lex.right _ (lex_of_suffix ?_ ?_ _ _)
  · exact (Quoted.split_snd_suffix r).trans (List.suffix_cons c r)
  · exact Nat.lt_succ_of_le (Quoted.split_snd_suffix r).length_le
  · exact (List.dropWhile_suffix _).trans (List.suffix_cons c r)
  · exact Nat.lt_succ_of_le (List.dropWhile_suffix _).length_le
  · exact (List.dropWhile_suffix _).trans (List.suffix_cons c r)
  · exact Nat.lt_succ_of_le (List.dropWhile_suffix _).length_le
  · exact (List.dropWhile_suffix _).trans (List.suffix_cons c r)
  · exact Nat.lt_succ_of_le (List.dropWhile_suffix _).length_le
  · exact (o.isSuffix.trans (List.dropWhile_suffix _)).trans (List.suffix_cons c r)
  · exact Nat.lt_succ_of_le (o.isSuffix.trans (List.dropWhile_suffix _)).length_le
  · exact List.suffix_cons c r
  · exact Nat.lt_succ_self _

/-- Replaces a use of a macro whose name has just been read; `rest` is the text
after the name.  A macro with parameters that no arguments follow is not used. -/
def invoke (t : Table) (disabled : List String) (m : Enabled t disabled) (rest : Text) :
    Except Error
      (Option { o : Outcome rest // m.val.isFunctionLike → o.after.length < rest.length }) :=
  match hp : m.val.params with
  | none => do
    let pieces ← (scan t (m.val.name :: disabled) (render [] [] m.val.body)).mapError
      Failure.error
    let o ← resume t disabled m.val.name (flatten pieces) rest
    return some ⟨o, by simp [isFunctionLike, hp]⟩
  | some params =>
    match readCall m.val params rest with
    | .error e => .error e
    | .ok none => .ok none
    | .ok (some call) => do
      let expanded ← call.args.attach.mapM fun a =>
        ((scan t disabled a.val).map flatten).mapError Failure.error
      let pieces ← (scan t (m.val.name :: disabled)
        (render call.args expanded m.val.body)).mapError Failure.error
      let o ← resume t disabled m.val.name (flatten pieces) call.after
      return some ⟨⟨o.output, o.after, o.isSuffix.trans call.isSuffix⟩,
        fun _ => Nat.lt_of_le_of_lt o.isSuffix.length_le call.shorter⟩
termination_by (enabledCount t disabled, weight rest, rest.length,
  if m.val.isFunctionLike then 0 else 2)
decreasing_by
  · exact Prod.Lex.left _ _ (enabledCount_cons_lt m)
  · simp only [isFunctionLike, hp, Option.isSome_none, Bool.false_eq_true, if_false]
    exact Prod.Lex.right _ (Prod.Lex.right _ (Prod.Lex.right _ (by omega)))
  · exact Prod.Lex.right _ (Prod.Lex.left _ _ (call.light a.val a.property))
  · exact Prod.Lex.left _ _ (enabledCount_cons_lt m)
  · exact Prod.Lex.right _ (lex_of_suffix call.isSuffix call.shorter _ _)

/-- Goes on with the replacement of a use of the macro `origin`: while it ends in
the name of another macro with parameters that may be replaced here, the arguments
of that macro are read from the text after the use. -/
def resume (t : Table) (disabled : List String) (origin : String) (output rest : Text) :
    Except Error (Outcome rest) :=
  match t.enabled? disabled (trailingName output) with
  | none => .ok ⟨output, rest, List.suffix_rfl⟩
  | some m =>
    if _hm : m.val.isFunctionLike && m.val.name != origin then
      match invoke t disabled m rest with
      | .error e => .error e
      | .ok none => .ok ⟨output, rest, List.suffix_rfl⟩
      | .ok (some ⟨tail, _ho⟩) => do
        let o ← resume t disabled origin (beforeTrailingName output ++ tail.output) tail.after
        return ⟨o.output, o.after, o.isSuffix.trans tail.isSuffix⟩
    else .ok ⟨output, rest, List.suffix_rfl⟩
termination_by (enabledCount t disabled, weight rest, rest.length, 1)
decreasing_by
  · simp only [Bool.and_eq_true] at _hm
    simp only [_hm.1, if_true]
    exact Prod.Lex.right _ (Prod.Lex.right _ (Prod.Lex.right _ (by omega)))
  · simp only [Bool.and_eq_true] at _hm
    exact Prod.Lex.right _ (lex_of_suffix tail.isSuffix (_ho _hm.1) _ _)

end

/-! ### The operations of a table -/

/-- Replaces the macros of the table in a text, piece by piece. -/
def Table.substitute (t : Table) (text : Text) : Except Failure (List Piece) :=
  scan t [] text

/-- Replaces the macros of the table in a text. -/
def Table.expand (t : Table) (text : Text) : Except Error Text :=
  ((t.substitute text).map flatten).mapError Failure.error

end PixelWrap.Macro
