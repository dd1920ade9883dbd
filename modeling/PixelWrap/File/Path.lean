import PixelWrap.Text.Basic

/-!
# Paths

A path is kept as it was given, because messages show it that way.

## Main definitions

* `Path.isAbsolute`, `Path.parts`: how a path is read.
* `Path.maxSize`, `Path.maxNameSize`: how long paths and the names in them can be.
* `Path.join`: a path inside a directory.
-/

namespace PixelWrap.Path

/-- Whether a path starts at the root. -/
def isAbsolute (p : String) : Bool := p.toList.head? == some '/'

/-- Whether a path ends in a slash, so that it can only name a directory. -/
def endsInSlash (p : String) : Bool := p.toList.getLast? == some '/'

/-- The steps of a path; empty ones count for nothing. -/
def parts (p : String) : List String :=
  ((Text.splitAt '/' p.toList).filter (!·.isEmpty)).map String.ofList

/-- The largest number of bytes in a path. -/
def maxSize : Nat := 4095

/-- The largest number of bytes in one step of a path. -/
def maxNameSize : Nat := 255

/-- Whether a path holds the character that ends a path for the system. -/
def hasNul (p : String) : Bool := p.toList.contains (Char.ofNat 0)

/-- The path of `name` inside the directory `dir`.  An absolute name stands for
itself. -/
def join (dir name : String) : String :=
  if isAbsolute name then name
  else if dir.isEmpty || endsInSlash dir then dir ++ name
  else dir ++ "/" ++ name

end PixelWrap.Path
