import PixelWrap.Source.Location
import PixelWrap.Macro.Arguments

/-!
# Errors of the preprocessor

## Main definitions

* `Preprocessed.Reason`: what can be wrong, with `Reason.message`.
* `Preprocessed.Error`: a reason and its place.
-/

namespace PixelWrap.Preprocessed

/-- What can be wrong with directives and macros. -/
inductive Reason where
  /-- A directive that does not exist. -/
  | unknownCommand (name : String)
  /-- An `#include` that names no file. -/
  | invalidInclude
  /-- An `#include` nested too deeply. -/
  | includeDepthExceeded (name : String)
  /-- A `#define` that introduces no macro. -/
  | invalidDefine
  /-- An `#undef` that names no macro. -/
  | invalidUndef
  /-- Nothing closes the arguments of a macro. -/
  | macroArgumentsNeverEnd (name : String)
  /-- The numbers of arguments and parameters of a macro do not match. -/
  | macroArgumentCount (name : String)
  /-- A condition that is empty or uses `defined` without an operand. -/
  | invalidIf (condition : String)
  /-- A condition that is no expression or has no value. -/
  | conditionFailed (condition : String)
  /-- An `#ifdef` or `#ifndef` that names no macro. -/
  | invalidIfdef (command : String)
  /-- An `#elif` that belongs to no group. -/
  | elifNotMatched
  /-- An `#else` that belongs to no group. -/
  | elseNotMatched
  /-- An `#endif` that belongs to no group. -/
  | endIfNotMatched
  /-- A group that is still open at the end. -/
  | groupNotClosed
  deriving DecidableEq, Repr

/-- What is wrong, in words. -/
def Reason.message : Reason → String
  | .unknownCommand name => "unknown preprocessor command #" ++ name
  | .invalidInclude => "invalid #include command"
  | .includeDepthExceeded name => "include nesting too deep at \"" ++ name ++ "\""
  | .invalidDefine => "invalid #define command"
  | .invalidUndef => "invalid #undef command"
  | .macroArgumentsNeverEnd name => "expected end of macro arguments for " ++ name
  | .macroArgumentCount name => "macro " ++ name ++ " requires different number of arguments"
  | .invalidIf condition => "invalid #if: " ++ condition
  | .conditionFailed condition => "#if condition parser failed: " ++ condition
  | .invalidIfdef command => "invalid #ifdef: " ++ command
  | .elifNotMatched => "encountered #elif but with no matching #if"
  | .elseNotMatched => "encountered #else but with no matching #if"
  | .endIfNotMatched => "encountered #endif but with no matching #if"
  | .groupNotClosed => "not enough #endif's encountered"

/-- The reason for which a use of a macro cannot be replaced. -/
def Reason.ofMacroError : Macro.Error → Reason
  | .argumentsNeverEnd name => .macroArgumentsNeverEnd name
  | .argumentCount name => .macroArgumentCount name

/-- What is wrong, and where. -/
structure Error where
  /-- What is wrong. -/
  reason : Reason
  /-- The directive or the use of a macro, or the end of the main file. -/
  location : Location
  deriving DecidableEq, Repr

/-- The error as messages show it. -/
def Error.message (e : Error) : String := e.location.display ++ ": " ++ e.reason.message

end PixelWrap.Preprocessed
