import PixelWrap.Source.Location

/-!
# Preprocessed text and where it comes from

The preprocessor puts out chunks of text one after the other.  A chunk was copied
from a file, byte by byte, or inserted at one place of a file.  The output keeps the
offset at which each chunk starts together with its origin, save for a chunk that
goes on in its file where the one before it stopped.  So each offset of the output
leads back to a file, and a stretch of the output that was copied at both ends can
be shown as it was written, with its comments and before its macros were replaced.

## Main definitions

* `Origin`, `Chunk`: a stretch of text and where it comes from.
* `Segment`: the start of a stretch of the output and its origin.
* `Output`: the text put out so far and its segments, with `Output.push`.
* `Output.place?`: the place that an offset of the output leads back to.
* `Preprocessed`: the files read and the output.
* `Preprocessed.location?`: the file, line and column of an offset.
* `Preprocessed.writtenText?`, `Preprocessed.sourceText`: a stretch as it was
  written.
-/

namespace PixelWrap

/-- Where text comes from; files are numbered in the order of loading. -/
inductive Origin where
  /-- Copied from a file, starting at an offset. -/
  | copied (file offset : Nat)
  /-- Inserted at an offset of a file. -/
  | inserted (file offset : Nat)
  deriving DecidableEq, Repr

/-- A stretch of text to put out. -/
structure Chunk where
  /-- Its text. -/
  text : Text
  /-- Where it comes from. -/
  origin : Origin
  deriving DecidableEq, Repr

/-- The start of a stretch of the output, which runs to the start of the next one. -/
structure Segment where
  /-- The offset of its first byte in the output. -/
  start : Nat
  /-- Where it comes from. -/
  origin : Origin
  deriving DecidableEq, Repr

/-- A place in one of the files. -/
structure Place where
  /-- The number of the file. -/
  file : Nat
  /-- The offset in it. -/
  offset : Nat
  /-- Whether the byte was copied from there. -/
  isCopy : Bool
  deriving DecidableEq, Repr

/-- The place that the byte at distance `d` from the start of a stretch comes from;
`size` is the length of what is put out from that start on. -/
def Origin.place (o : Origin) (size d : Nat) : Place :=
  match o with
  | .copied file offset => ⟨file, wrapBeyond (offset + size) (offset + d), true⟩
  | .inserted file offset => ⟨file, offset, false⟩

/-- Whether text of the given origin, put out at offset `p`, goes on in its file
where the segment stops. -/
def Segment.continues (s : Segment) (p : Nat) (o : Origin) : Bool :=
  match s.origin, o with
  | .copied file offset, .copied file' offset' => file == file' && offset + (p - s.start) == offset'
  | _, _ => false

/-! ### Output -/

/-- The text that has been put out, and where it comes from. -/
structure Output where
  /-- The text. -/
  code : Text := []
  /-- The starts of its stretches, in order. -/
  segments : List Segment := []
  deriving DecidableEq, Repr

namespace Output

/-- Puts out a chunk; an empty one leaves no trace. -/
def push (o : Output) (c : Chunk) : Output :=
  if c.text.isEmpty then o
  else
    { code := o.code ++ c.text
      segments :=
        if o.segments.getLast?.any (·.continues (Text.size o.code) c.origin) then o.segments
        else o.segments ++ [⟨Text.size o.code, c.origin⟩] }

/-- The last segment that starts at `p` or before. -/
def segment? (o : Output) (p : Nat) : Option Segment :=
  (o.segments.takeWhile (·.start ≤ p)).getLast?

/-- The place that an offset of the output leads back to.  The last segment goes on
past the end of the output. -/
def place? (o : Output) (p : Nat) : Option Place :=
  (o.segment? p).map fun s => s.origin.place (Text.size o.code - s.start) (p - s.start)

end Output

/-- A stretch of the output between two offsets. -/
structure Span where
  /-- The offset of its first byte. -/
  start : Nat
  /-- The offset after its last byte. -/
  stop : Nat
  deriving DecidableEq, Repr

/-- The smallest span that covers two spans. -/
def Span.join (a b : Span) : Span := ⟨min a.start b.start, max a.stop b.stop⟩

/-- The output of the preprocessor. -/
structure Preprocessed extends Output where
  /-- The files, in the order of loading. -/
  files : List SourceFile
  deriving DecidableEq, Repr

namespace Preprocessed

/-- The file, line and column that an offset of the output leads back to. -/
def location? (t : Preprocessed) (p : Nat) : Option Location := do
  let place ← t.place? p
  let file ← t.files[place.file]?
  return file.location place.offset

/-- A stretch of the output; empty if the span is no range of characters. -/
def text (t : Preprocessed) (s : Span) : Text :=
  (Text.slice? s.start s.stop t.code).getD []

/-- A stretch of the output as it was written.  Its first and last byte have to be
copies from one file. -/
def writtenText? (t : Preprocessed) (s : Span) : Option Text :=
  if s.stop ≤ s.start then none
  else do
    let first ← t.place? s.start
    let last ← t.place? (s.stop - 1)
    let file ← t.files[first.file]?
    if first.isCopy && last.isCopy && first.file == last.file && first.offset ≤ last.offset then
      Text.slice? first.offset (wrapBeyond (Text.size file.text) (last.offset + 1)) file.text
    else none

/-- A stretch of the output as it was written if possible, and as it is
otherwise. -/
def sourceText (t : Preprocessed) (s : Span) : Text :=
  (t.writtenText? s).getD (t.text s)

end Preprocessed

end PixelWrap
