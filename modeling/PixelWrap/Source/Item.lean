import PixelWrap.Text.Basic

/-!
# Directives and the text between them

A line whose first character other than white space is `#` holds a directive.  A
directive runs on into the next line while its lines end in a backslash.  The lines
between two directives form one region.

## Main definitions

* `Item`: a directive or a region.
* `Item.ofText`: the items of a text.
* `Command`: the name and the operands of a directive.
-/

namespace PixelWrap

/-! ### Lines -/

/-- Whether a line holds a directive. -/
def isDirectiveLine (l : Text) : Bool := (Text.trimStart l).head? == some '#'

/-- The line without its line end. -/
def dropLineEnd (l : Text) : Text :=
  ((l.reverse.dropWhile (· == '\n')).dropWhile (· == '\r')).reverse

/-- Whether a line ends in a backslash, its line end aside. -/
def isContinued (l : Text) : Bool := (dropLineEnd l).getLast? == some '\\'

/-- The lines that a directive runs on into: the lines after `l` up to one that is
not continued. -/
def continuation (l : Text) : List Text → List Text
  | [] => []
  | m :: ms => if isContinued l then m :: continuation m ms else []

/-- Line feeds in place of each backslash with carriage return and line feed. -/
def joinLongEnds : Text → Text
  | [] => []
  | '\\' :: '\r' :: '\n' :: r => '\n' :: joinLongEnds r
  | c :: r => c :: joinLongEnds r

/-- Line feeds in place of each backslash with a line feed. -/
def joinShortEnds : Text → Text
  | [] => []
  | '\\' :: '\n' :: r => '\n' :: joinShortEnds r
  | c :: r => c :: joinShortEnds r

/-! ### Commands -/

/-- The content of a directive. -/
structure Command where
  /-- The text after the `#`, without white space at its ends and with its lines
  joined. -/
  text : Text
  deriving DecidableEq, Repr

namespace Command

/-- The content of the directive that the lines make up. -/
def ofLines (ls : List Text) : Command :=
  ⟨Text.trim (joinShortEnds (joinLongEnds ((Text.trimStart ls.flatten).drop 1)))⟩

/-- The name of the directive. -/
def name (c : Command) : String := String.ofList (Text.splitName c.text).1

/-- What stands after the name. -/
def operands (c : Command) : Text := (Text.splitName c.text).2

end Command

/-! ### Items -/

/-- A directive or a region of a text. -/
inductive Item where
  /-- A directive and the offset of its `#`. -/
  | directive (offset : Nat) (command : Command)
  /-- The text between two directives and the offset at which it starts. -/
  | region (offset : Nat) (text : Text)
  deriving DecidableEq, Repr

namespace Item

/-- The items that lines make up; the first line starts at `offset`. -/
def ofLines (offset : Nat) : List Text → List Item
  | [] => []
  | l :: ls =>
    if isDirectiveLine l then
      let more := continuation l ls
      .directive (offset + Text.size (l.takeWhile isSpace)) (.ofLines (l :: more)) ::
        ofLines (offset + Text.size (l :: more).flatten) (ls.drop more.length)
    else
      let more := ls.takeWhile (!isDirectiveLine ·)
      .region offset (l :: more).flatten ::
        ofLines (offset + Text.size (l :: more).flatten) (ls.drop more.length)
termination_by ls => ls.length
decreasing_by all_goals simp only [List.length_drop, List.length_cons]; omega

/-- The items of a text. -/
def ofText (t : Text) : List Item := ofLines 0 (Text.lines t)

end Item

end PixelWrap
