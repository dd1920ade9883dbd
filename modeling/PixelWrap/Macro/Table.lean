import PixelWrap.Macro.Body

/-!
# Macros and the table of macros

## Main definitions

* `Macro`: a macro as a `#define` directive introduces it.
* `Macro.ofDefinition?`: checks the parameters and cuts the replacement text.
* `Macro.Table`: the macros defined at some point of a run, with `define`,
  `undefine` and `find?`.
-/

namespace PixelWrap

/-- A macro: its name, its parameters if it takes any, and its replacement text. -/
structure Macro where
  /-- The name that is replaced. -/
  name : String
  /-- The parameters; `none` for a macro that is used without parentheses. -/
  params : Option (List String)
  /-- Whether the last parameter takes all remaining arguments. -/
  variadic : Bool
  /-- The replacement text. -/
  body : List Macro.Segment
  deriving DecidableEq, Repr

namespace Macro

/-- Whether uses of the macro need arguments in parentheses. -/
def isFunctionLike (m : Macro) : Bool := m.params.isSome

/-- Whether a list of parameters is well formed: names, where the last one may
instead be `...`. -/
def validParams : List String → Bool
  | [] => true
  | [p] => p == "..." || Text.isName p.toList
  | p :: ps => Text.isName p.toList && validParams ps

/-- The name that a parameter has in the replacement text. -/
def paramName (p : String) : String := if p == "..." then "__VA_ARGS__" else p

/-- The macro that a definition introduces, if its parameters are well formed. -/
def ofDefinition? (name : String) (params : Option (List String)) (body : Text) :
    Option Macro :=
  if params.all validParams then
    let names := params.map (List.map paramName)
    some {
      name
      params := names
      variadic := params.any fun ps => ps.getLast? == some "..."
      body := markPasted false (segments names body) }
  else none

/-- The macros defined at some point of a run. -/
structure Table where
  /-- The macros; of two with one name the first counts. -/
  entries : List Macro := []
  deriving DecidableEq, Repr

namespace Table

/-- The macro of the given name. -/
def find? (t : Table) (name : String) : Option Macro :=
  t.entries.find? (·.name == name)

/-- Whether a macro of the given name is defined. -/
def isDefined (t : Table) (name : String) : Bool := (t.find? name).isSome

/-- The table without the macro of the given name. -/
def undefine (t : Table) (name : String) : Table :=
  ⟨t.entries.filter (·.name != name)⟩

/-- The table with one more macro, which replaces an earlier one of its name. -/
def define (t : Table) (m : Macro) : Table :=
  ⟨m :: (t.undefine m.name).entries⟩

/-- The macro of a name that is found carries that name and stands in the table. -/
theorem find?_eq_some {t : Table} {name : String} {m : Macro} (h : t.find? name = some m) :
    m ∈ t.entries ∧ m.name = name := by
  refine ⟨List.mem_of_find?_eq_some h, ?_⟩
  simpa using List.find?_some h

/-- A macro is found right after its definition. -/
@[simp] theorem find?_define_self (t : Table) (m : Macro) :
    (t.define m).find? m.name = some m := by
  simp [define, find?]

end Table

end Macro

end PixelWrap
