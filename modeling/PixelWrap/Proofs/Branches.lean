import Mathlib
import PixelWrap.Proofs.Nesting
import PixelWrap.Proofs.Visits

/-!
# The branches that a run takes

A run keeps a stack of open groups and looks at the flags on top of it to tell whether an
item counts.  Where the groups of the files are nested properly, it does the same as an
interpreter of the nested groups, which has no flags: of each group that it comes to, it
runs the first branch whose condition holds, and never looks at the others.

## Main definitions

* `Forest.run`, `Tail.run`: the interpreter of nested groups.
* `Preprocessed.runNested`, `Preprocessed.runNestedMain`: runs a file, and a main file,
  with it.
* `Preprocessed.Loaded`: the files that a run loads.
* `Preprocessed.Simulates`: a run over some items does the same as an interpreter.

## Main results

* `Forest.simulates_of_inactive`: items in inactive text do nothing.
* `Forest.simulates`: a run over the items of a forest interprets the forest.
* `Preprocessed.runMain_eq_runNestedMain`: a run over nested files interprets them.
-/

namespace PixelWrap

namespace Preprocessed

/-! ### The interpreter -/

/-- Whether the branch after a directive is to be taken, as far as its own condition
says. -/
def gate (macros : Macro.Table) (c : Command) : Directive → Except Reason Bool
  | .ifHolds condition => evaluate macros condition
  | .ifDefined wanted name =>
    if Text.isName name then .ok (macros.isDefined (String.ofList name) == wanted)
    else .error (.invalidIfdef (String.ofList c.text))
  | .elseIf condition => evaluate macros condition
  | _ => .ok true

/-- Evaluates the condition of a directive with the macros that are defined now. -/
def test {r : Directive.Role} (e : Entry) (m : Mark r) (s : State) : Except Stop Bool :=
  (gate s.macros m.command (Directive.ofCommand m.command)).mapError fun reason =>
    ⟨⟨reason, e.file.location m.offset⟩, s.notices⟩

/-- Runs an item that has nothing to do with groups. -/
def runPlain (load : String → Option Text) (descend : Descend) (e : Entry) (s : State) :
    Item → Except Stop State
  | .region offset text => storeRegion e offset text s
  | .directive offset command => perform load descend e offset s (Directive.ofCommand command)

end Preprocessed

open Preprocessed

mutual

/-- Runs a forest.  Of a group, the first branch is run if its condition holds, and
the tail if not. -/
def Forest.run (load : String → Option Text) (descend : Descend) (e : Entry) :
    Forest → State → Except Stop State
  | .nil, s => .ok s
  | .plain i _ rest, s => do
    let s ← runPlain load descend e s i
    rest.run load descend e s
  | .group head body tail rest, s => do
    let holds ← test e head s
    let s ← if holds then body.run load descend e s else tail.run load descend e s
    rest.run load descend e s

/-- Runs the tail of a group of which no branch has been taken yet. -/
def Tail.run (load : String → Option Text) (descend : Descend) (e : Entry) :
    Tail → State → Except Stop State
  | .endIf _, s => .ok s
  | .otherwise _ body _, s => body.run load descend e s
  | .elseIf m body tail, s => do
    let holds ← test e m s
    if holds then body.run load descend e s else tail.run load descend e s

end

namespace Preprocessed

/-- Runs the forest that the items of a file make up. -/
def runForest (load : String → Option Text) (descend : Descend) (e : Entry) (s : State) :
    Except Stop State :=
  match Forest.ofItems? (Item.ofText e.file.code) with
  | some f => f.run load descend e s
  | none => s.fail e 0 .groupNotClosed

/-- Runs a file with nested groups, in which includes may be nested as deeply as the
first argument says. -/
def runNested (load : String → Option Text) : Nat → Entry → State → Except Stop State
  | 0, e, s => runForest load none e s
  | depth + 1, e, s => runForest load (some (runNested load depth)) e s

/-- Runs a main file with nested groups. -/
def runNestedMain (load : String → Option Text) (name : Option String) (text : Text) :
    Except Stop State :=
  runNested load maxIncludeDepth (mainEntry name text) (startState name text)

/-- The file is loaded in the run of a main file. -/
inductive Loaded (load : String → Option Text) (name : Option String) (text : Text) :
    Entry → Prop
  | main : Loaded load name text (mainEntry name text)
  | included {v : Visit} {entry : Entry} : Visited load name text v → v.depth ≠ 0 →
      Loads load v.state v.item entry → Loaded load name text entry

variable {load : String → Option Text} {depth : Nat} {e entry : Entry} {s s' : State}

/-- How an `#include` runs another file with nested groups. -/
def descendNested (load : String → Option Text) : Nat → Descend
  | 0 => none
  | depth + 1 => some (runNested load depth)

theorem runNested_eq (load : String → Option Text) (depth : Nat) (e : Entry) (s : State) :
    runNested load depth e s = runForest load (descendNested load depth) e s := by
  cases depth <;> rfl

theorem runForest_of_items {descend : Descend} {f : Forest}
    (h : f.items = Item.ofText e.file.code) :
    runForest load descend e s = f.run load descend e s := by
  rw [runForest, Forest.ofItems?_eq_some_iff.mpr h]

/-! ### The files that are loaded -/

/-- The groups of each file that is loaded while the items are run are nested properly. -/
def LoadsNested (load : String → Option Text) (depth : Nat) (e : Entry) (s : State)
    (is : List Item) : Prop :=
  ∀ v entry, Visits load depth e s is v → v.depth ≠ 0 → Loads load v.state v.item entry →
    Nested entry.file.code

theorem runItems_append (is js : List Item) :
    runItems load depth e s (is ++ js) =
      runItems load depth e s is >>= fun s' => runItems load depth e s' js :=
  List.foldlM_append

theorem Visits.append_left {is : List Item} {v : Visit} (h : Visits load depth e s is v)
    (js : List Item) : Visits load depth e s (is ++ js) v := by
  induction h with
  | here => exact .here ..
  | next hs _ ih => exact .next hs ih
  | inside hl h _ => exact .inside hl h

theorem Visits.append_right {is js : List Item} {v : Visit}
    (hs : runItems load depth e s is = .ok s') (h : Visits load depth e s' js v) :
    Visits load depth e s (is ++ js) v := by
  induction is generalizing s with
  | nil =>
    cases hs
    exact h
  | cons i is ih =>
    rw [runItems_cons] at hs
    obtain ⟨s₁, hi, hr⟩ := bind_eq_ok.mp hs
    exact .next hi (ih hr)

/-! ### Simulation -/

/-- The state with other groups open. -/
def State.within (gs : Groups) (s : State) : State := { s with groups := gs }

/-- A run over the items that starts with the groups `gs` open ends with `gs'` open and
does apart from that what `k` does, to which the groups do not matter. -/
def Simulates (load : String → Option Text) (depth : Nat) (e : Entry) (gs : Groups)
    (is : List Item) (gs' : Groups) (k : State → Except Stop State) : Prop :=
  ∀ s : State, LoadsNested load depth e (s.within gs) is →
    runItems load depth e (s.within gs) is = (k s).map (State.within gs')

variable {gs gs' gs'' : Groups} {is js : List Item} {k k' : State → Except Stop State}

theorem Simulates.nil : Simulates load depth e gs [] gs .ok := by
  intro s _
  rfl

theorem Simulates.append (h : Simulates load depth e gs is gs' k)
    (h' : Simulates load depth e gs' js gs'' k') :
    Simulates load depth e gs (is ++ js) gs'' fun s => k s >>= k' := by
  intro s hn
  have hs := h s fun v entry hv => hn v entry (hv.append_left js)
  rw [runItems_append, hs]
  dsimp only
  cases hk : k s with
  | error stop => rfl
  | ok s₁ =>
    -- What is visited in the second part is visited after the first one has ended.
    rw [hk] at hs
    exact h' s₁ fun v entry hv => hn v entry (.append_right hs hv)

theorem Simulates.append_ok (h : Simulates load depth e gs is gs' k)
    (h' : Simulates load depth e gs' js gs'' .ok) :
    Simulates load depth e gs (is ++ js) gs'' k := by
  have hk : (fun s => k s >>= .ok) = k := by
    funext s
    cases k s <;> rfl
  rw [← hk]
  exact h.append h'

/-- A directive of a group evaluates its condition if it has to and opens the way into a
branch by the value. -/
theorem Simulates.test {r : Directive.Role} {m : Mark r} {next : Bool → Groups}
    {k : Bool → State → Except Stop State}
    (hstep : ∀ s : State, step load (descend load depth) e (s.within gs) m.item =
      (Preprocessed.test e m s).map fun b => s.within (next b))
    (h : ∀ b, Simulates load depth e (next b) is gs' (k b)) :
    Simulates load depth e gs (m.item :: is) gs' fun s =>
      Preprocessed.test e m s >>= fun b => k b s := by
  intro s hn
  rw [runItems_cons]
  dsimp only
  have hs := hstep s
  cases ht : Preprocessed.test e m s with
  | error stop =>
    rw [ht] at hs
    rw [hs]
    rfl
  | ok b =>
    rw [ht] at hs
    rw [hs]
    exact h b s fun v entry hv => hn v entry (.next hs hv)

/-- A directive of a group of which no condition counts only moves to a next branch. -/
theorem Simulates.cons {i : Item} (hstep : ∀ s : State,
      step load (descend load depth) e (s.within gs) i = .ok (s.within gs'))
    (h : Simulates load depth e gs' is gs'' k) : Simulates load depth e gs (i :: is) gs'' k := by
  intro s hn
  rw [runItems_cons, hstep s]
  exact h s fun v entry hv => hn v entry (.next (hstep s) hv)

theorem Simulates.single {i : Item}
    (hstep : ∀ s : State, LoadsNested load depth e (s.within gs) [i] →
      step load (descend load depth) e (s.within gs) i = (k s).map (State.within gs')) :
    Simulates load depth e gs [i] gs' k := by
  intro s hn
  rw [runItems_cons, hstep s hn]
  cases k s <;> rfl

/-! ### The directives of a group -/

theorem regroup_of_plain {d : Directive} (h : d.role = .plain) (macros : Macro.Table)
    (gs : Groups) (c : Command) : regroup macros gs c d = .ok gs := by
  cases d with
  | ifHolds | ifDefined | elseIf | otherwise | endIf => cases h
  | _ => rfl

theorem perform_of_role {d : Directive} (h : d.role ≠ .plain) (descend : Descend)
    (offset : Nat) : perform load descend e offset s d = .ok s := by
  cases d with
  | ifHolds | ifDefined | elseIf | otherwise | endIf => rfl
  | _ => exact absurd rfl h

section Mark

variable {r : Directive.Role} {m : Mark r}

/-- What a directive of a group does is to change the groups. -/
theorem step_mark (hr : r ≠ .plain) (descend : Descend) :
    step load descend e (s.within gs) m.item =
      match regroup s.macros gs m.command (Directive.ofCommand m.command) with
      | .error reason => .error ⟨⟨reason, e.file.location m.offset⟩, s.notices⟩
      | .ok gs' => .ok (s.within gs') := by
  have hp : (Directive.ofCommand m.command).role ≠ .plain := by
    rw [m.role_eq]
    exact hr
  rw [Mark.item, step]
  simp only [perform_of_role hp, ite_self]
  rfl

theorem step_of_regroup_eq_ok (hr : r ≠ .plain) (descend : Descend)
    (h : regroup s.macros gs m.command (Directive.ofCommand m.command) = .ok gs') :
    step load descend e (s.within gs) m.item = .ok (s.within gs') := by
  rw [step_mark hr, h]

theorem step_of_regroup_eq_map (hr : r ≠ .plain) (descend : Descend) {next : Bool → Groups}
    (h : regroup s.macros gs m.command (Directive.ofCommand m.command) =
      (gate s.macros m.command (Directive.ofCommand m.command)).map next) :
    step load descend e (s.within gs) m.item = (test e m s).map fun b => s.within (next b) := by
  rw [step_mark hr, h, test]
  cases gate s.macros m.command (Directive.ofCommand m.command) <;> rfl

end Mark

/-- No further condition of the group counts: it stands in inactive text, or a branch has
been taken. -/
structure Settled (g : Group) : Prop where
  closed : (g.parentActive && !g.taken) = false
  open_else : g.seenElse = false

/-- A group in active text of which no branch has been taken. -/
def waiting : Group := { active := false, taken := false, parentActive := true, seenElse := false }

theorem exists_settled_of_enter {gate : Bool} (h : (gs.isActive && !gate) = false) :
    ∃ g, gs.enter gate = g :: gs ∧ Settled g :=
  ⟨_, rfl, h, rfl⟩

theorem enter_false_of_active (h : gs.isActive = true) : gs.enter false = waiting :: gs := by
  simp [Groups.enter, waiting, h]

section Regroup

variable {macros : Macro.Table} {c : Command} {d : Directive} {g : Group}

theorem regroup_of_opens (h : d.role = .opens) (ha : gs.isActive = true) :
    regroup macros gs c d = (gate macros c d).map fun b => gs.enter b := by
  cases d with
  | ifHolds condition => simp only [regroup, gate, ha, if_true]
  | ifDefined wanted name =>
    simp only [regroup, gate, ha, if_true]
    split <;> rfl
  | _ => cases h

theorem regroup_of_opens_inactive (h : d.role = .opens) (ha : gs.isActive = false) :
    regroup macros gs c d = .ok (gs.enter false) := by
  cases d with
  | ifHolds condition => simp [regroup, ha]
  | ifDefined wanted name => simp [regroup, ha]
  | _ => cases h

theorem regroup_of_elseIf (h : d.role = .elseIf) :
    regroup macros (waiting :: gs) c d =
      (gate macros c d).map fun b => { waiting with active := b, taken := b } :: gs := by
  cases d with
  | elseIf condition =>
    simp only [regroup, gate]
    cases evaluate macros condition <;>
      simp [Groups.needsCondition?, Groups.elseIf?, waiting, bind, Except.bind, Except.map]
  | _ => cases h

theorem regroup_of_elseIf_settled (h : d.role = .elseIf) (hg : Settled g) :
    regroup macros (g :: gs) c d = .ok ({ g with active := false } :: gs) := by
  cases d with
  | elseIf condition =>
    simp [regroup, Groups.needsCondition?, Groups.elseIf?, hg.closed, hg.open_else, bind,
      Except.bind]
  | _ => cases h

theorem regroup_of_otherwise (h : d.role = .otherwise) (hg : g.seenElse = false) :
    regroup macros (g :: gs) c d =
      .ok ({ g with seenElse := true, active := g.parentActive && !g.taken, taken := true } ::
        gs) := by
  cases d with
  | otherwise => simp [regroup, Groups.otherwise?, hg]
  | _ => cases h

theorem regroup_of_endIf (h : d.role = .endIf) : regroup macros (g :: gs) c d = .ok gs := by
  cases d with
  | endIf => rfl
  | _ => cases h

end Regroup

theorem Simulates.endIf {g : Group} (m : Mark .endIf) :
    Simulates load depth e (g :: gs) [m.item] gs .ok :=
  .cons (fun _ => step_of_regroup_eq_ok (by decide) _ (regroup_of_endIf m.role_eq)) .nil

/-! ### The other items -/

theorem step_plain_of_inactive {i : Item} (h : i.role = .plain) (ha : gs.isActive = false)
    (descend : Descend) : step load descend e (s.within gs) i = .ok (s.within gs) := by
  cases i with
  | region offset text => simp [step, State.within, ha]
  | directive offset command =>
    rw [Item.role] at h
    simp [step, State.within, regroup_of_plain h, ha]

theorem storeRegion_within (offset : Nat) (text : Text) :
    storeRegion e offset text (s.within gs) =
      (storeRegion e offset text s).map (State.within gs) := by
  have hm : (s.within gs).macros = s.macros := rfl
  rw [storeRegion, storeRegion, hm]
  cases s.macros.substitute text <;> rfl

theorem defineMacro_within (offset : Nat) (operands : Text) :
    defineMacro e offset operands (s.within gs) =
      (defineMacro e offset operands s).map (State.within gs) := by
  have hm : (s.within gs).macros = s.macros := rfl
  unfold defineMacro
  cases Directive.definition? operands with
  | none => rfl
  | some m =>
    by_cases h : s.macros.isDefined m.name = true
    · simp only [hm, h, if_true]
      rfl
    · simp only [hm, h]
      rfl

/-- Running a file and interpreting it as nested groups, inside groups that are active,
come to the same. -/
def Agree (load : String → Option Text) (depth : Nat) : Prop :=
  ∀ (e : Entry) (gs : Groups) (s : State), gs.isActive = true → Nested e.file.code →
    LoadsNested load depth e (s.within gs) (Item.ofText e.file.code) →
    runFile load depth e (s.within gs) = (runNested load depth e s).map (State.within gs)

theorem includeFile_within (hdepth : ∀ below, depth = below + 1 → Agree load below)
    {offset : Nat} {command : Command} {operands : Text} (ha : gs.isActive = true)
    (hd : Directive.ofCommand command = .includeFile operands)
    (hn : LoadsNested load depth e (s.within gs) [.directive offset command]) :
    includeFile load (descend load depth) e offset operands (s.within gs) =
      (includeFile load (descendNested load depth) e offset operands s).map (State.within gs) := by
  unfold includeFile
  cases hname : Directive.includeName? operands with
  | none => rfl
  | some name =>
    cases depth with
    | zero => rfl
    | succ below =>
      simp only [descend, descendNested]
      cases hload : load name with
      | none => rfl
      | some text =>
        -- The file is nested, and so are those that are loaded from inside of it.
        have hl : Loads load (s.within gs) (.directive offset command)
            ⟨s.files.length, ⟨some name, text⟩⟩ := .mk ha hd hname hload
        have hrun := hdepth below rfl ⟨s.files.length, ⟨some name, text⟩⟩ gs
          (s.enter ⟨s.files.length, ⟨some name, text⟩⟩) ha
          (hn _ _ (.here ..) (Nat.succ_ne_zero below) hl)
          fun v entry hv => hn v entry (.inside hl hv)
        simp only [State.within, State.enter] at hrun ⊢
        rw [hrun]
        cases runNested load below _ _ <;> rfl

theorem runPlain_within (hdepth : ∀ below, depth = below + 1 → Agree load below) {i : Item}
    (h : i.role = .plain) (ha : gs.isActive = true)
    (hn : LoadsNested load depth e (s.within gs) [i]) :
    step load (descend load depth) e (s.within gs) i =
      (runPlain load (descendNested load depth) e s i).map (State.within gs) := by
  cases i with
  | region offset text =>
    have hg : (s.within gs).groups = gs := rfl
    rw [step, hg, if_pos ha]
    exact storeRegion_within offset text
  | directive offset command =>
    rw [Item.role] at h
    have hg : (s.within gs).groups = gs := rfl
    rw [step, hg, regroup_of_plain h]
    simp only [ha, if_true, runPlain]
    change perform load (descend load depth) e offset (s.within gs) _ = _
    cases hd : Directive.ofCommand command with
    | includeFile operands => exact includeFile_within hdepth ha hd hn
    | define operands => exact defineMacro_within offset operands
    | undefine name =>
      simp only [perform]
      split <;> rfl
    | _ => rfl

end Preprocessed

/-! ### Forests -/

section Simulation

variable {load : String → Option Text} {depth : Nat} {e : Entry}

-- A group that is opened in inactive text is settled from its start, and inside the other
-- branches of a settled group the text is inactive.
mutual

/-- **Items in inactive text do nothing.** -/
theorem Forest.simulates_of_inactive (f : Forest) {gs : Groups} (ha : gs.isActive = false) :
    Simulates load depth e gs f.items gs .ok := by
  match f with
  | .nil => exact .nil
  | .plain i h rest =>
    exact .cons (fun _ => step_plain_of_inactive h ha _) (rest.simulates_of_inactive ha)
  | .group head body tail rest =>
    have hbody : (gs.enter false).isActive = false := by simp
    obtain ⟨g, hg, hsettled⟩ : ∃ g, gs.enter false = g :: gs ∧ Settled g :=
      exists_settled_of_enter (by simp [ha])
    refine .cons (fun _ => step_of_regroup_eq_ok (by decide) _
      (regroup_of_opens_inactive head.role_eq ha)) ?_
    rw [hg] at hbody ⊢
    exact (body.simulates_of_inactive hbody).append
      ((tail.simulates_of_settled hsettled).append (rest.simulates_of_inactive ha))

/-- Nor do the further branches of a group that is settled. -/
theorem Tail.simulates_of_settled (t : Tail) {gs : Groups} {g : Group} (hg : Settled g) :
    Simulates load depth e (g :: gs) t.items gs .ok := by
  match t with
  | .endIf m => exact .endIf m
  | .otherwise m body close =>
    refine .cons (fun _ => step_of_regroup_eq_ok (by decide) _
      (regroup_of_otherwise m.role_eq hg.open_else)) ?_
    refine .append (body.simulates_of_inactive ?_) (.endIf close)
    exact hg.closed
  | .elseIf m body tail =>
    refine .cons (fun _ => step_of_regroup_eq_ok (by decide) _
      (regroup_of_elseIf_settled m.role_eq hg)) ?_
    refine .append (body.simulates_of_inactive rfl) (tail.simulates_of_settled ?_)
    exact ⟨hg.closed, hg.open_else⟩

end

mutual

/-- **A run over the items of a forest in active text interprets the forest.** -/
theorem Forest.simulates (hdepth : ∀ below, depth = below + 1 → Agree load below) (f : Forest)
    {gs : Groups} (ha : gs.isActive = true) :
    Simulates load depth e gs f.items gs (f.run load (descendNested load depth) e) := by
  match f with
  | .nil => exact .nil
  | .plain i h rest =>
    exact Simulates.append (.single fun s hn => runPlain_within hdepth h ha hn)
      (rest.simulates hdepth ha)
  | .group head body tail rest =>
    have hrest := rest.simulates hdepth ha
    refine .test (fun _ => step_of_regroup_eq_map (by decide) _
      (regroup_of_opens head.role_eq ha)) fun holds => ?_
    cases holds with
    | true =>
      -- The branch that is taken settles the group, so its tail does nothing.
      have hbody : (gs.enter true).isActive = true := by simp [ha]
      obtain ⟨g, hg, hsettled⟩ : ∃ g, gs.enter true = g :: gs ∧ Settled g :=
        exists_settled_of_enter (by simp)
      rw [hg] at hbody ⊢
      exact (body.simulates hdepth hbody).append
        ((tail.simulates_of_settled hsettled).append hrest)
    | false =>
      -- The branch is passed over, and the group goes on waiting.
      have hbody : (gs.enter false).isActive = false := by simp
      rw [enter_false_of_active ha] at hbody ⊢
      exact (body.simulates_of_inactive hbody).append ((tail.simulates hdepth ha).append hrest)

/-- The tail of a group is interpreted if no branch before it has been taken. -/
theorem Tail.simulates (hdepth : ∀ below, depth = below + 1 → Agree load below) (t : Tail)
    {gs : Groups} (ha : gs.isActive = true) :
    Simulates load depth e (waiting :: gs) t.items gs
      (t.run load (descendNested load depth) e) := by
  match t with
  | .endIf m => exact .endIf m
  | .otherwise m body close =>
    refine .cons (fun _ => step_of_regroup_eq_ok (by decide) _
      (regroup_of_otherwise m.role_eq rfl)) ?_
    refine .append_ok (body.simulates hdepth ?_) (.endIf close)
    rfl
  | .elseIf m body tail =>
    refine .test (fun _ => step_of_regroup_eq_map (by decide) _
      (regroup_of_elseIf m.role_eq)) fun holds => ?_
    cases holds with
    | true =>
      refine .append_ok (body.simulates hdepth ?_) (tail.simulates_of_settled ?_)
      · rfl
      · exact ⟨rfl, rfl⟩
    | false => exact .append (body.simulates_of_inactive rfl) (tail.simulates hdepth ha)

end

end Simulation

namespace Preprocessed

variable {load : String → Option Text} {name : Option String} {text : Text}

/-! ### Files -/

/-- A file that is included is run with a smaller depth, so this goes by induction on the
depth. -/
theorem agree (depth : Nat) : Agree load depth := by
  induction depth using Nat.strongRecOn with
  | ind depth ih =>
    intro e gs s ha hnested hn
    obtain ⟨f, hf⟩ := hnested
    have hdepth : ∀ below, depth = below + 1 → Agree load below := by
      intro below hb
      exact ih below (by omega)
    rw [runFile_eq, runNested_eq, runForest_of_items hf, ← hf]
    rw [← hf] at hn
    exact f.simulates hdepth ha s hn

theorem nested_of_loaded (ht : Nested (SourceFile.code ⟨name, text⟩))
    (hl : ∀ name text, load name = some text → Nested (SourceFile.code ⟨some name, text⟩))
    (e : Entry) (h : Loaded load name text e) : Nested e.file.code := by
  cases h with
  | main => exact ht
  | @included v _ _ _ h =>
    generalize v.item = i at h
    cases h with
    | mk _ _ _ h => exact hl _ _ h

/-- What is run on the state leaves the open groups as they are. -/
def KeepsGroups (k : State → Except Stop State) : Prop :=
  ∀ s s', k s = .ok s' → s'.groups = s.groups

theorem KeepsGroups.bind {k k' : State → Except Stop State} (h : KeepsGroups k)
    (h' : KeepsGroups k') : KeepsGroups fun s => k s >>= k' := by
  intro s s' hs
  obtain ⟨s₁, hk, hk'⟩ := bind_eq_ok.mp hs
  rw [h' s₁ s' hk', h s s₁ hk]

theorem keepsGroups_runPlain {descend : Descend} {e : Entry}
    (hd : ∀ run ∈ descend, ∀ entry, KeepsGroups (run entry)) (i : Item) :
    KeepsGroups fun s => runPlain load descend e s i := by
  intro s s' h
  cases i with
  | region offset text =>
    simp only [runPlain, storeRegion] at h
    split at h <;> cases h
    rfl
  | directive offset command =>
    simp only [runPlain] at h
    cases hc : Directive.ofCommand command with
    | includeFile operands =>
      rw [hc, perform, includeFile] at h
      split at h
      · cases h
      · split at h
        · cases h
        · next run =>
          split at h
          · cases h
            rfl
          · obtain ⟨s₁, hs₁, hs'⟩ := bind_eq_ok.mp h
            cases hs'
            exact (hd run rfl _ _ s₁ hs₁ :)
    | define operands =>
      rw [hc, perform, defineMacro] at h
      split at h
      · cases h
      · cases h
        split <;> rfl
    | undefine name =>
      rw [hc, perform] at h
      split at h <;> cases h
      rfl
    | unknown name =>
      rw [hc] at h
      cases h
    | _ =>
      rw [hc] at h
      cases h
      rfl

end Preprocessed

section Groups

variable {load : String → Option Text} {descend : Descend} {e : Entry}

mutual

theorem Forest.keepsGroups_run (hd : ∀ run ∈ descend, ∀ entry, KeepsGroups (run entry))
    (f : Forest) : KeepsGroups (f.run load descend e) := by
  match f with
  | .nil =>
    intro s s' h
    cases h
    rfl
  | .plain i _ rest => exact (keepsGroups_runPlain hd i).bind (rest.keepsGroups_run hd)
  | .group head body tail rest =>
    intro s s' h
    obtain ⟨holds, -, h⟩ := bind_eq_ok.mp h
    have hrest := rest.keepsGroups_run hd
    cases holds with
    | true => exact (body.keepsGroups_run hd).bind hrest s s' h
    | false => exact (tail.keepsGroups_run hd).bind hrest s s' h

theorem Tail.keepsGroups_run (hd : ∀ run ∈ descend, ∀ entry, KeepsGroups (run entry))
    (t : Tail) : KeepsGroups (t.run load descend e) := by
  match t with
  | .endIf _ =>
    intro s s' h
    cases h
    rfl
  | .otherwise _ body _ => exact body.keepsGroups_run hd
  | .elseIf m body tail =>
    intro s s' h
    obtain ⟨holds, -, h⟩ := bind_eq_ok.mp h
    cases holds with
    | true => exact body.keepsGroups_run hd s s' h
    | false => exact tail.keepsGroups_run hd s s' h

end

end Groups

namespace Preprocessed

variable {load : String → Option Text} {name : Option String} {text : Text}

theorem keepsGroups_runNested (depth : Nat) (e : Entry) : KeepsGroups (runNested load depth e) := by
  induction depth using Nat.strongRecOn generalizing e with
  | ind depth ih =>
    intro s s' h
    rw [runNested_eq, runForest] at h
    split at h
    · next f hf =>
      refine f.keepsGroups_run ?_ s s' h
      intro run hrun entry
      cases depth with
      | zero => cases hrun
      | succ below =>
        cases hrun
        exact ih below (Nat.lt_succ_self below) entry
    · cases h

/-- **A run over files with nested groups interprets the groups.**  It ends in the same
state, with the same macros and the same output, or stops with the same error, as the
interpreter that of each group runs one branch and does not look at the others. -/
theorem runMain_eq_runNestedMain (load : String → Option Text) (name : Option String)
    (text : Text) (h : ∀ e, Loaded load name text e → Nested e.file.code) :
    runMain load name text = runNestedMain load name text := by
  have hn : LoadsNested load maxIncludeDepth (mainEntry name text) (startState name text)
      (Item.ofText (mainEntry name text).file.code) := by
    intro v entry hv hd hl
    exact h entry (.included hv hd hl)
  have hrun := agree maxIncludeDepth (mainEntry name text) [] (startState name text) rfl
    (h _ .main) hn
  rw [runMain_eq, ← runFile_eq]
  change runFile load maxIncludeDepth _ (State.within [] (startState name text)) >>= _ = _
  rw [hrun, runNestedMain]
  cases hr : runNested load maxIncludeDepth (mainEntry name text) (startState name text) with
  | error stop => rfl
  | ok s =>
    have hs : s.groups = [] := keepsGroups_runNested _ _ _ s hr
    have hw : s.within [] = s := by rw [State.within, ← hs]
    change Except.ok (s.within []) = .ok s
    rw [hw]

/-- The directives in the first and the last branch do not exist, but only the branch
between them is run. -/
theorem runMain_eq_runNestedMain_elif :
    (∀ e, Loaded (fun _ => some ['x', '\n']) none
        "#if 0\n#y\n#elif 1\n#include <f>\n#else\n#z\n#endif\n".toList e →
        Nested e.file.code) ∧
      runMain (fun _ => some ['x', '\n']) none
          "#if 0\n#y\n#elif 1\n#include <f>\n#else\n#z\n#endif\n".toList =
        runNestedMain (fun _ => some ['x', '\n']) none
          "#if 0\n#y\n#elif 1\n#include <f>\n#else\n#z\n#endif\n".toList ∧
      (runMain (fun _ => some ['x', '\n']) none
          "#if 0\n#y\n#elif 1\n#include <f>\n#else\n#z\n#endif\n".toList).toOption.map
        (·.output.code) = some ['x', '\n', '\n'] := by
  have h : ∀ e, Loaded (fun _ => some ['x', '\n']) none
      "#if 0\n#y\n#elif 1\n#include <f>\n#else\n#z\n#endif\n".toList e →
      Nested e.file.code := by
    refine nested_of_loaded (nested_iff.mpr (by cbv)) ?_
    intro _ _ hl
    cases hl
    exact nested_iff.mpr (by cbv)
  exact ⟨h, runMain_eq_runNestedMain _ _ _ h, by cbv⟩

end Preprocessed

end PixelWrap
