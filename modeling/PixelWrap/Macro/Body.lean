import PixelWrap.Text.Quoted

/-!
# Replacement texts of macros

The replacement text of a macro is cut once, when the macro is defined, into
segments: text that is copied, places where an argument goes, and pasting marks.
An argument next to a pasting mark goes in as written, any other one after its
own macros have been replaced.

## Main definitions

* `Macro.Segment`: one segment of a replacement text.
* `Macro.segments`: cuts a replacement text.
* `Macro.markPasted`: settles what a pasting mark does to its neighbours.
* `Macro.render`: puts arguments into a replacement text.
-/

namespace PixelWrap.Macro

/-- A segment of a replacement text.  Arguments are numbered from zero in the order
of the parameters. -/
inductive Segment where
  /-- Text that is copied: a run of white space or a run without any. -/
  | text (t : Text)
  /-- An argument whose macros have been replaced. -/
  | arg (index : Nat)
  /-- An argument as written. -/
  | rawArg (index : Nat)
  /-- An argument as a string literal. -/
  | quoted (index : Nat)
  /-- A pasting mark `##`, which joins its neighbours. -/
  | paste
  deriving DecidableEq, Repr

/-- Whether the segment is text of white space alone. -/
def Segment.isBlank : Segment → Bool
  | .text t => t.all isSpace
  | _ => false

/-- The segment as an operand of a pasting mark. -/
def Segment.raw : Segment → Segment
  | .arg i => .rawArg i
  | s => s

/-! ### Cutting a replacement text -/

/-- Puts a character in front of the segments.  It joins the first of them if that
is text of the same kind, white space or not. -/
def consChar (c : Char) : List Segment → List Segment
  | .text (d :: t) :: r =>
    if isSpace c == isSpace d then .text (c :: d :: t) :: r
    else .text [c] :: .text (d :: t) :: r
  | r => .text [c] :: r

/-- Puts a text in front of the segments. -/
def consText (t : Text) (r : List Segment) : List Segment := t.foldr consChar r

/-- The position of a word among the parameters of a macro, if it is a name. -/
def paramIndex? (params : Option (List String)) (word : Text) : Option Nat :=
  if Text.isName word then params.bind fun ps => ps.findIdx? (· == String.ofList word)
  else none

/-- The parameter named right after a `#`, white space aside. -/
def quotedParam? (params : Option (List String)) (t : Text) : Option Nat :=
  paramIndex? params (Text.splitName (Text.trimStart t)).1

/-- The text after the name that follows a `#`, white space aside. -/
def afterName (t : Text) : Text := (Text.splitName (Text.trimStart t)).2

/-- The text after a name is a suffix of the text that holds the name. -/
theorem afterName_suffix (t : Text) : afterName t <:+ t :=
  List.IsSuffix.trans ⟨_, Text.splitName_append _⟩ (List.dropWhile_suffix isSpace)

/-- Cuts a replacement text into segments.  Words are maximal runs of letters,
digits and underscores; a word that is a parameter becomes an argument.  String
literals are copied as they stand. -/
def segments (params : Option (List String)) : Text → List Segment
  | [] => []
  | '#' :: '#' :: r => .paste :: segments params r
  | c :: r =>
    if c == '"' then consText (c :: (Quoted.split r).1) (segments params (Quoted.split r).2)
    else if isNameChar c then
      match paramIndex? params (c :: r.takeWhile isNameChar) with
      | some i => .arg i :: segments params (r.dropWhile isNameChar)
      | none =>
        consText (c :: r.takeWhile isNameChar) (segments params (r.dropWhile isNameChar))
    else if c == '#' then
      match quotedParam? params r with
      | some i => .quoted i :: segments params (afterName r)
      | none => consChar c (segments params r)
    else consChar c (segments params r)
termination_by t => t.length
decreasing_by
  all_goals simp only [List.length_cons]
  · omega
  · have := (Quoted.split_snd_suffix r).length_le
    omega
  · have := (List.dropWhile_suffix (l := r) isNameChar).length_le
    omega
  · have := (List.dropWhile_suffix (l := r) isNameChar).length_le
    omega
  · have := (afterName_suffix r).length_le
    omega
  · omega
  · omega

/-! ### Pasting -/

/-- Whether a pasting mark comes next, white space aside. -/
def pasteFollows (r : List Segment) : Bool :=
  (r.dropWhile Segment.isBlank).head? == some .paste

/-- Drops the white space around pasting marks and turns the arguments next to one
into arguments as written.  `afterPaste` says that a mark stands right before. -/
def markPasted (afterPaste : Bool) : List Segment → List Segment
  | [] => []
  | .paste :: r => .paste :: markPasted true r
  | s :: r =>
    let pasted := afterPaste || pasteFollows r
    if s.isBlank then
      if pasted then markPasted afterPaste r else s :: markPasted false r
    else (if pasted then s.raw else s) :: markPasted false r

/-! ### Putting arguments in -/

/-- An argument as a string literal: its words with single spaces between them,
quotes and backslashes escaped. -/
def quote (t : Text) : Text :=
  '"' :: Quoted.escape (Text.join [' '] (Text.words t)) ++ ['"']

/-- The text that a segment stands for. -/
def Segment.render (raw expanded : List Text) : Segment → Text
  | .text t => t
  | .arg i => expanded.getD i []
  | .rawArg i => raw.getD i []
  | .quoted i => quote (raw.getD i [])
  | .paste => []

/-- A replacement text with the arguments in place, as written and with their
macros replaced. -/
def render (raw expanded : List Text) (body : List Segment) : Text :=
  body.flatMap (Segment.render raw expanded)

end PixelWrap.Macro
