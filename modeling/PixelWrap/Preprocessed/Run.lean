import PixelWrap.Condition.Defined
import PixelWrap.Condition.Parser
import PixelWrap.Directive.Basic
import PixelWrap.Directive.Group
import PixelWrap.Macro.Expansion
import PixelWrap.Notice
import PixelWrap.Preprocessed.Basic
import PixelWrap.Preprocessed.Error

/-!
# Running the preprocessor

A file is run item by item: directives change the macros and the open groups, and
active regions are put out with their macros replaced.  An `#include` runs another
file in between.  The nesting of includes is limited, which also makes the run end
when files include each other.

## Main definitions

* `Preprocessed.State`: what a run has read, put out and learned so far.
* `Preprocessed.step`: runs one item.
* `Preprocessed.runFile`: runs a file.
* `Preprocessed.run`: runs a main file.
-/

namespace PixelWrap

/-- A result together with the notices given while it was made. -/
structure Report (α : Type) where
  /-- The result. -/
  result : α
  /-- The notices, in order. -/
  notices : List Notice
  deriving Repr

namespace Preprocessed

/-- Includes nested more deeply than this are taken to be recursive. -/
def maxIncludeDepth : Nat := 64

/-! ### The state of a run -/

/-- What a run has read, put out and learned so far. -/
structure State where
  /-- The files, in the order of loading. -/
  files : List SourceFile := []
  /-- The macros that are defined. -/
  macros : Macro.Table := {}
  /-- The groups that are open. -/
  groups : Groups := []
  /-- The output. -/
  output : Output := {}
  /-- The notices. -/
  notices : List Notice := []
  deriving DecidableEq, Repr

/-- The end of a run that cannot go on. -/
structure Stop where
  /-- What is wrong. -/
  error : Error
  /-- The notices given before. -/
  notices : List Notice
  deriving DecidableEq, Repr

/-- A file that is being run, and its number. -/
structure Entry where
  /-- Its number among the files loaded. -/
  index : Nat
  /-- The file. -/
  file : SourceFile
  deriving DecidableEq, Repr

namespace State

/-- Ends the run with an error at an offset of a file. -/
def fail (s : State) (e : Entry) (offset : Nat) (reason : Reason) : Except Stop State :=
  .error ⟨⟨reason, e.file.location offset⟩, s.notices⟩

/-- Gives a notice on an offset of a file. -/
def notify (s : State) (level : Level) (e : Entry) (offset : Nat) (message : String) : State :=
  let text := (e.file.location offset).display ++ ": " ++ message
  { s with notices := s.notices ++ [⟨level, .preprocessor, text⟩] }

/-- Puts chunks out, one after the other. -/
def emit (s : State) (chunks : List Chunk) : State :=
  { s with output := chunks.foldl Output.push s.output }

end State

/-! ### Regions -/

/-- The chunks that pieces of a region make up; the first of them starts at
`offset`. -/
def chunksOf (file offset : Nat) : List Macro.Piece → List Chunk
  | [] => []
  | .kept source :: ps =>
    ⟨source, .copied file offset⟩ :: chunksOf file (offset + Text.size source) ps
  | .replaced source output :: ps =>
    ⟨output, .inserted file offset⟩ :: chunksOf file (offset + Text.size source) ps

/-- Puts out a region with its macros replaced. -/
def storeRegion (e : Entry) (offset : Nat) (text : Text) (s : State) : Except Stop State :=
  match s.macros.substitute text with
  | .ok pieces => .ok (s.emit (chunksOf e.index offset pieces))
  | .error f =>
    s.fail e (offset + (Text.size text - Text.size f.rest)) (.ofMacroError f.error)

/-! ### Conditions -/

/-- Whether a condition holds with the given macros. -/
def evaluate (macros : Macro.Table) (condition : Text) : Except Reason Bool :=
  if condition.isEmpty then .error (.invalidIf "")
  else
    match Condition.resolveDefined? macros.isDefined condition with
    | none => .error (.invalidIf (String.ofList condition))
    | some resolved =>
      match macros.expand resolved with
      | .error e => .error (.ofMacroError e)
      | .ok expanded =>
        match Condition.holds? expanded with
        | none => .error (.conditionFailed (String.ofList expanded))
        | some b => .ok b

/-- The groups after a directive that opens, divides or closes one; other
directives leave them as they are.  In text that is not active no condition is
evaluated. -/
def regroup (macros : Macro.Table) (gs : Groups) (c : Command) :
    Directive → Except Reason Groups
  | .ifHolds condition =>
    if gs.isActive then (evaluate macros condition).map fun gate => gs.enter gate
    else .ok (gs.enter false)
  | .ifDefined wanted name =>
    if gs.isActive then
      if Text.isName name then
        .ok (gs.enter (macros.isDefined (String.ofList name) == wanted))
      else .error (.invalidIfdef (String.ofList c.text))
    else .ok (gs.enter false)
  | .elseIf condition =>
    match gs.needsCondition? with
    | none => .error .elifNotMatched
    | some needed => do
      let gate ← if needed then evaluate macros condition else .ok false
      match gs.elseIf? gate with
      | some gs => .ok gs
      | none => .error .elifNotMatched
  | .otherwise =>
    match gs.otherwise? with
    | some gs => .ok gs
    | none => .error .elseNotMatched
  | .endIf =>
    match gs.leave? with
    | some gs => .ok gs
    | none => .error .endIfNotMatched
  | _ => .ok gs

/-! ### Directives -/

/-- Runs another file; `none` where includes are nested as deeply as is allowed. -/
abbrev Descend := Option (Entry → State → Except Stop State)

/-- Runs the file that an `#include` names.  A file that cannot be loaded is passed
over.  A line feed keeps the last line of the file apart from the text after the
directive. -/
def includeFile (load : String → Option Text) (descend : Descend) (e : Entry) (offset : Nat)
    (operands : Text) (s : State) : Except Stop State :=
  match Directive.includeName? operands with
  | none => s.fail e offset .invalidInclude
  | some name =>
    match descend with
    | none => s.fail e offset (.includeDepthExceeded name)
    | some runEntry =>
      match load name with
      | none =>
        .ok (s.notify .warn e offset
          ("could not find include file \"" ++ name ++ "\", continuing without it"))
      | some text => do
        let entry : Entry := ⟨s.files.length, ⟨some name, text⟩⟩
        let s ← runEntry entry { s with files := s.files ++ [entry.file] }
        return s.emit [⟨['\n'], .inserted e.index offset⟩]

/-- Defines a macro. -/
def defineMacro (e : Entry) (offset : Nat) (operands : Text) (s : State) :
    Except Stop State :=
  match Directive.definition? operands with
  | none => s.fail e offset .invalidDefine
  | some m =>
    let s := if s.macros.isDefined m.name then
        s.notify .debug e offset ("redefinition of macro " ++ m.name)
      else s
    .ok { s with macros := s.macros.define m }

/-- Runs a directive in active text that has nothing to do with groups. -/
def perform (load : String → Option Text) (descend : Descend) (e : Entry) (offset : Nat)
    (s : State) : Directive → Except Stop State
  | .includeFile operands => includeFile load descend e offset operands s
  | .define operands => defineMacro e offset operands s
  | .undefine name =>
    if Text.isName name then
      .ok { s with macros := s.macros.undefine (String.ofList name) }
    else s.fail e offset .invalidUndef
  | .message kind text =>
    .ok (s.notify .warn e offset ("#" ++ kind ++ " " ++ String.ofList text))
  | .unknown name => s.fail e offset (.unknownCommand name)
  | _ => .ok s

/-- Runs one item of a file. -/
def step (load : String → Option Text) (descend : Descend) (e : Entry) (s : State) :
    Item → Except Stop State
  | .region offset text =>
    if s.groups.isActive then storeRegion e offset text s else .ok s
  | .directive offset command =>
    let d := Directive.ofCommand command
    match regroup s.macros s.groups command d with
    | .error reason => s.fail e offset reason
    | .ok gs =>
      if s.groups.isActive then perform load descend e offset { s with groups := gs } d
      else .ok { s with groups := gs }

/-- Runs a file in which includes may be nested as deeply as the first argument
says. -/
def runFile (load : String → Option Text) : Nat → Entry → State → Except Stop State
  | 0, e, s => (Item.ofText e.file.code).foldlM (step load none e) s
  | depth + 1, e, s =>
    (Item.ofText e.file.code).foldlM (step load (some (runFile load depth)) e) s

/-- Runs a main file to its end, where no group may be open. -/
def runMain (load : String → Option Text) (name : Option String) (text : Text) :
    Except Stop State := do
  let entry : Entry := ⟨0, ⟨name, text⟩⟩
  let s ← runFile load maxIncludeDepth entry { files := [entry.file] }
  if s.groups.isEmpty then return s else s.fail entry (Text.size text) .groupNotClosed

/-- The output of a run. -/
def ofState (s : State) : Preprocessed := { s.output with files := s.files }

/-- Preprocesses a main file; `load` gives the files that can be included. -/
def run (load : String → Option Text) (name : Option String) (text : Text) :
    Report (Except Error Preprocessed) :=
  match runMain load name text with
  | .ok s => ⟨.ok (ofState s), s.notices⟩
  | .error stop => ⟨.error stop.error, stop.notices⟩

end Preprocessed

end PixelWrap
