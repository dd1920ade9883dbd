import PixelWrap.Text.Comment

/-!
# Source files and places in them

## Main definitions

* `Location`: a line and a column of a file, as messages show it.
* `wrapBeyond`: offsets past the end of a text.
* `SourceFile`: a file that has been loaded.
* `SourceFile.code`: its text without comments.
* `SourceFile.location`: the line and column of an offset.
-/

namespace PixelWrap

/-- A place in a file.  Lines and columns count from one, and columns count bytes. -/
structure Location where
  /-- The name of the file, if it has one. -/
  file : Option String
  /-- The line. -/
  line : Nat
  /-- The column, in bytes. -/
  column : Nat
  deriving DecidableEq, Repr

namespace Location

/-- The place of something that stands in no file. -/
def nowhere : Location := ⟨none, 0, 0⟩

/-- The place as messages show it. -/
def display (l : Location) : String :=
  l.file.getD "<unknown>" ++ ":" ++ toString l.line ++ ":" ++ toString l.column

end Location

/-- A count of bytes, which is a word of 64 bits: where it goes beyond `limit`, the end
of a text, it wraps around. -/
def wrapBeyond (limit n : Nat) : Nat := if n ≤ limit then n else n % UInt64.size

theorem wrapBeyond_of_le {limit n : Nat} (h : n ≤ limit) : wrapBeyond limit n = n := if_pos h

/-- The offsets at which the lines of a text start; the text itself starts at
`offset`. -/
def lineStarts (offset : Nat) : Text → List Nat
  | [] => []
  | c :: r =>
    if c == '\n' then (offset + 1) :: lineStarts (offset + 1) r
    else lineStarts (offset + c.utf8Size) r

/-- A file that has been loaded. -/
structure SourceFile where
  /-- The name it was loaded under, if it has one. -/
  name : Option String
  /-- Its text as loaded. -/
  text : Text
  deriving DecidableEq, Repr

namespace SourceFile

/-- The text of the file with its comments overwritten; every byte keeps its
offset. -/
def code (f : SourceFile) : Text := Comment.blank f.text

@[simp] theorem size_code (f : SourceFile) : Text.size f.code = Text.size f.text :=
  Comment.size_blankFrom .code f.text

/-- The line and column of an offset.  An offset past the end belongs to the last
line. -/
def location (f : SourceFile) (offset : Nat) : Location :=
  let starts := (lineStarts 0 f.text).takeWhile (· ≤ offset)
  { file := f.name
    line := starts.length + 1
    column := wrapBeyond (Text.size f.text + 1) (offset - starts.getLastD 0 + 1) }

end SourceFile

end PixelWrap
