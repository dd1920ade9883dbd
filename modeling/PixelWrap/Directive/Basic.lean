import PixelWrap.Source.Item
import PixelWrap.Macro.Table

/-!
# Directives

## Main definitions

* `Directive`: what a directive asks for.
* `Directive.ofCommand`: the directive with a given name and operands.
* `Directive.includeName?`: the file that an `#include` names.
* `Directive.definition?`: the macro that a `#define` introduces.
-/

namespace PixelWrap

/-- What a directive asks for. -/
inductive Directive where
  /-- `#if`: opens a group. -/
  | ifHolds (condition : Text)
  /-- `#ifdef` and `#ifndef`: opens a group by whether a macro is defined as
  wanted. -/
  | ifDefined (wanted : Bool) (name : Text)
  /-- `#elif`: starts the next branch of a group. -/
  | elseIf (condition : Text)
  /-- `#else`: starts the last branch of a group. -/
  | otherwise
  /-- `#endif`: closes a group. -/
  | endIf
  /-- `#include`: reads another file. -/
  | includeFile (operands : Text)
  /-- `#define`: defines a macro. -/
  | define (operands : Text)
  /-- `#undef`: forgets a macro. -/
  | undefine (name : Text)
  /-- `#error` and `#warning`: gives a notice. -/
  | message (kind : String) (text : Text)
  /-- A directive that is of no concern here. -/
  | ignored
  /-- A directive that does not exist. -/
  | unknown (name : String)
  deriving DecidableEq, Repr

namespace Directive

/-- The directive that a command spells. -/
def ofCommand (c : Command) : Directive :=
  match c.name with
  | "if" => .ifHolds (Text.trim c.operands)
  | "ifdef" => .ifDefined true (Text.trim c.operands)
  | "ifndef" => .ifDefined false (Text.trim c.operands)
  | "elif" => .elseIf (Text.trim c.operands)
  | "else" => .otherwise
  | "endif" => .endIf
  | "include" => .includeFile (Text.trim c.operands)
  | "define" => .define c.operands
  | "undef" => .undefine (Text.trim c.operands)
  | "error" => .message "error" (Text.trim c.operands)
  | "warning" => .message "warning" (Text.trim c.operands)
  | "pragma" => .ignored
  | "line" => .ignored
  | "" => .ignored
  | name => .unknown name

/-- The name up to the closing mark, if only white space follows the mark. -/
def closedBy? (mark : Char) (t : Text) : Option String :=
  match Text.cut? [mark] t with
  | some (name, rest) => if rest.all isSpace then some (String.ofList name) else none
  | none => none

/-- The file that the operands of an `#include` name, in quotes or in angle
brackets. -/
def includeName? : Text → Option String
  | '"' :: r => closedBy? '"' r
  | '<' :: r => closedBy? '>' r
  | _ => none

/-- The parameters in a list between parentheses. -/
def params (t : Text) : List String :=
  if t.all isSpace then []
  else (Text.splitAt ',' t).map fun p => String.ofList (Text.trim p)

/-- The parameters and the replacement text that follow the name of a macro.  A
parenthesis right after the name starts the parameters. -/
def paramsAndBody? : Text → Option (Option (List String) × Text)
  | '(' :: r => (Text.cut? [')'] r).map fun (ps, body) => (some (params ps), body)
  | r => some (none, r)

/-- The macro that the operands of a `#define` introduce. -/
def definition? (operands : Text) : Option Macro :=
  if operands.head? == some ' ' || operands.head? == some '\t' then
    let (name, after) := Text.splitName (Text.trimStart operands)
    if name.isEmpty then none
    else do
      let (params, body) ← paramsAndBody? after
      Macro.ofDefinition? (String.ofList name) params (Text.trim body)
  else none

end Directive

end PixelWrap
