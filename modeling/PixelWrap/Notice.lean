/-!
# Notices

Besides its result the program gives notices: warnings about the source and remarks
on what it does.

## Main definitions

* `Notice`: a notice with its level and the part of the program it comes from.
-/

namespace PixelWrap

/-- How much a notice matters. -/
inductive Level where
  /-- The run cannot go on. -/
  | error
  /-- The source may not be what its author meant. -/
  | warn
  /-- A remark of interest to every user. -/
  | info
  /-- A remark for those who look for a fault. -/
  | debug
  deriving DecidableEq, Repr

/-- The part of the program that a notice comes from. -/
inductive Part where
  /-- Directives, macros and includes. -/
  | preprocessor
  /-- Declarations, the shaders of functions, and the files of shaders. -/
  | shaders
  /-- The command line. -/
  | commandLine
  deriving DecidableEq, Repr

/-- A notice. -/
structure Notice where
  /-- How much it matters. -/
  level : Level
  /-- Where it comes from. -/
  part : Part
  /-- What it says. -/
  message : String
  deriving DecidableEq, Repr

end PixelWrap
