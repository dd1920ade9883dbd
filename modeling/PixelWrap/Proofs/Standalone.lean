import Mathlib
import PixelWrap.Generate
import PixelWrap.Proofs.Inclusion
import PixelWrap.Proofs.Lexemes
import PixelWrap.Proofs.Outline

/-!
# Shaders on their own

A shader holds text of its source as it is written, and directives that stand between two
tokens of a function are a part of that text.  Where they are whole groups, the shader can
be run on its own.  A function whose body starts in one branch of a group and ends in
another one, or that is closed in each branch of a group anew, takes along only some of the
directives of the group, and then the shader cannot be run.  How that can be told from where the
body starts and ends is in `nested_copied_iff`.

## Main definitions

* `Preprocessed.Reason.isUnmatched`: the error is that directives do not match.
* `Preprocessed.GroupStep`: what a directive can do to the open groups.
* `Preprocessed.Untouched`: a step leaves the open groups alone.
* `Preprocessed.groupsBehind`: the open groups behind an item that matches those before it.
* `Preprocessed.Covers`: the open groups are closed by what has been read from the end on.
* `Shader.copied`: the part of a shader in which text of its source stands.

## Main results

* `Preprocessed.exists_read?_of_runItems`: groups match where a run succeeds.
* `Preprocessed.runItems_of_read?`: they do not fail to match where they are nested.
* `generate_standalone`: **a shader can be run as far as groups are concerned if and only
  if those that it takes along are nested.**
* `exists_not_standalone`: they need not be.
-/

namespace PixelWrap

namespace Preprocessed

/-- The error is that a directive of a group belongs to none, or that a group is open at
the end. -/
def Reason.isUnmatched : Reason → Bool
  | .elifNotMatched | .elseNotMatched | .endIfNotMatched | .groupNotClosed => true
  | _ => false

/-! ### What items do to the open groups -/

/-- What an item that plays the given part can do to the open groups. -/
inductive GroupStep : Directive.Role → Groups → Groups → Prop
  | plain (gs : Groups) : GroupStep .plain gs gs
  | opens {g : Group} (gs : Groups) : g.seenElse = false → GroupStep .opens gs (g :: gs)
  | elseIf {g g' : Group} (gs : Groups) : g.seenElse = false → g'.seenElse = false →
      GroupStep .elseIf (g :: gs) (g' :: gs)
  | otherwise {g g' : Group} (gs : Groups) : g.seenElse = false → g'.seenElse = true →
      GroupStep .otherwise (g :: gs) (g' :: gs)
  | endIf (g : Group) (gs : Groups) : GroupStep .endIf (g :: gs) gs

variable {e : Entry} {s s' : State} {descend : Descend} {macros : Macro.Table} {c : Command}
  {gs gs' : Groups}

theorem isUnmatched_of_evaluate {condition : Text} {reason : Reason}
    (h : evaluate macros condition = .error reason) : reason.isUnmatched = false := by
  have hmacro : ∀ f : Macro.Error, (Reason.ofMacroError f).isUnmatched = false := by
    intro f
    cases f <;> rfl
  unfold evaluate at h
  split at h
  · cases h
    rfl
  · split at h
    · cases h
      rfl
    · split at h
      · cases h
        exact hmacro _
      · split at h
        · cases h
          rfl
        · cases h

/-- A next branch with a condition evaluates it if it counts. -/
theorem regroup_elseIf (macros : Macro.Table) (c : Command) (gs : Groups) {g : Group}
    (hg : g.seenElse = false) (condition : Text) :
    ∃ next : Bool → Group, (∀ b, (next b).seenElse = false) ∧
      regroup macros (g :: gs) c (.elseIf condition) =
        (if g.parentActive && !g.taken then evaluate macros condition else .ok false).map
          fun b => next b :: gs := by
  cases hp : g.parentActive && !g.taken with
  | false => exact ⟨fun _ => { g with active := false }, fun _ => hg,
      regroup_of_elseIf_settled rfl ⟨hp, hg⟩⟩
  | true =>
    refine ⟨fun b => { g with active := b, taken := b }, fun _ => hg, ?_⟩
    simp only [regroup, Groups.needsCondition?, hg, hp, Bool.false_eq_true, if_false, if_true]
    cases evaluate macros condition with
    | error reason => rfl
    | ok b => simp [Groups.elseIf?, hg, hp, bind, Except.bind, Except.map]

theorem groupStep_of_regroup {d : Directive} (h : regroup macros gs c d = .ok gs') :
    GroupStep d.role gs gs' := by
  cases d with
  | ifHolds condition =>
    rw [regroup] at h
    split at h
    · obtain ⟨gate, -, rfl⟩ := Macro.map_eq_ok h
      exact .opens gs rfl
    · cases h
      exact .opens gs rfl
  | ifDefined wanted name =>
    rw [regroup] at h
    split at h
    · split at h <;> cases h
      exact .opens gs rfl
    · cases h
      exact .opens gs rfl
  | elseIf condition =>
    cases gs with
    | nil => cases h
    | cons g gs =>
      cases hg : g.seenElse with
      | true => simp [regroup, Groups.needsCondition?, hg] at h
      | false =>
        obtain ⟨next, hnext, hr⟩ := regroup_elseIf macros c gs hg condition
        rw [hr] at h
        obtain ⟨b, -, rfl⟩ := Macro.map_eq_ok h
        exact .elseIf gs hg (hnext b)
  | otherwise =>
    cases gs with
    | nil => cases h
    | cons g gs =>
      cases hg : g.seenElse with
      | true => simp [regroup, Groups.otherwise?, hg] at h
      | false =>
        rw [regroup_of_otherwise rfl hg] at h
        cases h
        exact .otherwise gs hg rfl
  | endIf =>
    cases gs with
    | nil => cases h
    | cons g gs =>
      cases h
      exact .endIf g _
  | includeFile | define | undefine | message | ignored | unknown =>
    cases h
    exact .plain _

/-- A directive that fails to match could not have done anything to the groups. -/
theorem not_groupStep_of_regroup {d : Directive} {reason : Reason}
    (h : regroup macros gs c d = .error reason) (hr : reason.isUnmatched = true) :
    ¬GroupStep d.role gs gs' := by
  have hevaluate : ∀ {α : Type} {condition : Text} {f : Bool → α},
      (evaluate macros condition).map f ≠ .error reason := by
    intro α condition f he
    cases hv : evaluate macros condition with
    | ok b =>
      rw [hv] at he
      cases he
    | error r =>
      rw [hv] at he
      cases he
      rw [isUnmatched_of_evaluate hv] at hr
      cases hr
  intro hstep
  cases d with
  | ifHolds condition =>
    rw [regroup] at h
    split at h
    · exact hevaluate h
    · cases h
  | ifDefined wanted name =>
    rw [regroup] at h
    split at h
    · split at h
      · cases h
      · cases h
        cases hr
    · cases h
  | elseIf condition =>
    cases hstep with
    | @elseIf g g' gs hg _ =>
      obtain ⟨next, -, hn⟩ := regroup_elseIf macros c gs hg condition
      rw [hn] at h
      split at h
      · exact hevaluate h
      · cases h
  | otherwise =>
    cases hstep with
    | otherwise gs hg _ =>
      rw [regroup_of_otherwise rfl hg] at h
      cases h
  | endIf =>
    cases hstep with
    | endIf g gs => cases h
  | includeFile | define | undefine | message | ignored | unknown => cases h

/-- The open groups are `gs` if the run can go on, and it does not stop because directives
do not match. -/
inductive Untouched (gs : Groups) : Except Stop State → Prop
  | ok {s : State} : s.groups = gs → Untouched gs (.ok s)
  | error {stop : Stop} : stop.error.reason.isUnmatched = false → Untouched gs (.error stop)

/-- What is done in active text apart from groups leaves them as they are, and does not
fail to match one, if nothing can be included. -/
theorem untouched_perform (descend : Descend) (e : Entry) (s : State) (d : Directive)
    (offset : Nat) : Untouched s.groups (perform (fun _ => none) descend e offset s d) := by
  cases d with
  | includeFile operands =>
    simp only [perform, includeFile]
    split
    · exact .error rfl
    · split
      · exact .error rfl
      · exact .ok rfl
  | define operands =>
    simp only [perform, defineMacro]
    split
    · exact .error rfl
    · refine .ok ?_
      split <;> rfl
  | undefine name =>
    simp only [perform]
    split
    · exact .ok rfl
    · exact .error rfl
  | unknown name => exact .error rfl
  | ifHolds | ifDefined | elseIf | otherwise | endIf | message | ignored => exact .ok rfl

theorem untouched_storeRegion (e : Entry) (s : State) (offset : Nat) (text : Text) :
    Untouched s.groups (storeRegion e offset text s) := by
  unfold storeRegion
  split
  · exact .ok rfl
  · next f _ =>
    refine .error ?_
    cases f.error <;> rfl

/-- The groups that are open behind an item, if it matches those that are open in front of it. -/
def groupsBehind (s : State) : Item → Except Reason Groups
  | .region _ _ => .ok s.groups
  | .directive _ command => regroup s.macros s.groups command (Directive.ofCommand command)

theorem groupStep_of_groupsBehind {i : Item} (h : groupsBehind s i = .ok gs) :
    GroupStep i.role s.groups gs := by
  cases i with
  | region =>
    cases h
    exact .plain _
  | directive => exact groupStep_of_regroup h

theorem not_groupStep_of_groupsBehind {i : Item} {reason : Reason}
    (h : groupsBehind s i = .error reason) (hr : reason.isUnmatched = true) :
    ¬GroupStep i.role s.groups gs := by
  cases i with
  | region => cases h
  | directive => exact not_groupStep_of_regroup h hr

/-- Nothing else that an item does reaches the groups, if nothing can be included. -/
theorem untouched_step (descend : Descend) (e : Entry) {i : Item} (h : groupsBehind s i = .ok gs) :
    Untouched gs (step (fun _ => none) descend e s i) := by
  cases i with
  | region offset text =>
    cases h
    rw [step]
    split
    · exact untouched_storeRegion e s offset text
    · exact .ok rfl
  | directive offset command =>
    have hgs : regroup s.macros s.groups command (Directive.ofCommand command) = .ok gs := h
    simp only [step, hgs]
    split
    · exact untouched_perform descend e { s with groups := gs } _ offset
    · exact .ok rfl

theorem exists_step_eq_fail {load : String → Option Text} (descend : Descend) (e : Entry)
    {i : Item} {reason : Reason} (h : groupsBehind s i = .error reason) :
    ∃ offset, step load descend e s i = s.fail e offset reason := by
  cases i with
  | region => cases h
  | directive offset command =>
    have hreason : regroup s.macros s.groups command (Directive.ofCommand command) =
        .error reason := h
    exact ⟨offset, by simp only [step, hreason]⟩

/-- **An item moves the open groups as its role says.** -/
theorem groupStep_of_step {i : Item} (h : step (fun _ => none) descend e s i = .ok s') :
    GroupStep i.role s.groups s'.groups := by
  cases hg : groupsBehind s i with
  | error reason =>
    obtain ⟨offset, hfail⟩ := exists_step_eq_fail descend e hg
    cases hfail.symm.trans h
  | ok gs =>
    have hstep := untouched_step descend e hg
    rw [h] at hstep
    cases hstep with
    | ok hs =>
      rw [hs]
      exact groupStep_of_groupsBehind hg

/-- **An item fails to match only where it cannot move the open groups.** -/
theorem not_groupStep_of_step {i : Item} {stop : Stop}
    (h : step (fun _ => none) descend e s i = .error stop)
    (hr : stop.error.reason.isUnmatched = true) : ¬GroupStep i.role s.groups gs' := by
  cases hg : groupsBehind s i with
  | error reason =>
    obtain ⟨offset, hfail⟩ := exists_step_eq_fail descend e hg
    cases hfail.symm.trans h
    exact not_groupStep_of_groupsBehind hg hr
  | ok gs =>
    have hstep := untouched_step descend e hg
    rw [h] at hstep
    cases hstep with
    | error hs =>
      rw [hs] at hr
      cases hr

/-! ### Groups and the forest that is read from the end on -/

/-- Each open group has a tail that closes it, and the tail of a group that has had its
`#else` is no more than the `#endif`. -/
def Covers (gs : Groups) (behind : List (Tail × Forest)) : Prop :=
  List.Forall₂ (fun g t => g.seenElse = true → ∃ m, t.1 = .endIf m) gs behind

/-- The role of an item is that of the part that is read from it. -/
def partRole : Item.Part → Directive.Role
  | .plain _ _ => .plain
  | .opens _ => .opens
  | .elseIf _ => .elseIf
  | .otherwise _ => .otherwise
  | .endIf _ => .endIf

theorem role_eq_partRole (i : Item) : i.role = partRole i.part := by
  have hi := Item.item_part i
  generalize i.part = p at hi
  subst hi
  cases p with
  | plain i h => exact h
  | opens m | elseIf m | otherwise m | endIf m => exact m.role_eq

/-- What an item can do to the groups, reading it undoes. -/
theorem Covers.exists_add? {p : Item.Part} {r : Frames} (hstep : GroupStep (partRole p) gs gs')
    (h : Covers gs' r.behind) : ∃ r', Frames.add? p r = some r' ∧ Covers gs r'.behind := by
  obtain ⟨f, behind⟩ := r
  cases p with
  | plain i hi =>
    cases hstep
    exact ⟨_, rfl, h⟩
  | opens m =>
    cases hstep
    cases h with
    | @cons _ t _ ts _ h => exact ⟨⟨.group m f t.1 t.2, ts⟩, rfl, h⟩
  | elseIf m =>
    cases hstep with
    | elseIf gs hg _ =>
      cases h with
      | @cons _ t _ ts _ h =>
        refine ⟨⟨.nil, (.elseIf m f t.1, t.2) :: ts⟩, rfl, .cons (fun he => ?_) h⟩
        rw [hg] at he
        cases he
  | otherwise m =>
    cases hstep with
    | otherwise gs hg hg' =>
      cases h with
      | @cons _ t _ ts ht h =>
        obtain ⟨t, rest⟩ := t
        obtain ⟨close, rfl⟩ := ht hg'
        refine ⟨⟨.nil, (.otherwise m f close, rest) :: ts⟩, rfl, .cons (fun he => ?_) h⟩
        rw [hg] at he
        cases he
  | endIf m =>
    cases hstep
    exact ⟨_, rfl, .cons (fun _ => ⟨m, rfl⟩) h⟩

/-- What reading an item undoes, the item can do. -/
theorem Covers.of_add? {p : Item.Part} {r r' : Frames} (hadd : Frames.add? p r = some r')
    (h : Covers gs r'.behind) :
    (∃ gs', GroupStep (partRole p) gs gs') ∧
      ∀ gs', GroupStep (partRole p) gs gs' → Covers gs' r.behind := by
  have hopen : ∀ {g : Group} {t : Tail}, (g.seenElse = true → ∃ m, t = .endIf m) →
      (∀ m, t ≠ .endIf m) → g.seenElse = false := by
    intro g t hg ht
    by_contra hne
    obtain ⟨m, hm⟩ := hg (by simpa using hne)
    exact ht m hm
  unfold Frames.add? at hadd
  split at hadd
  · cases hadd
    refine ⟨⟨gs, .plain gs⟩, fun gs' hstep => ?_⟩
    cases hstep
    exact h
  · cases hadd
    refine ⟨⟨waiting :: gs, .opens gs rfl⟩, fun gs' hstep => ?_⟩
    cases hstep with
    | opens gs hg =>
      refine .cons (fun he => ?_) h
      rw [hg] at he
      cases he
  · cases hadd
    cases h with
    | @cons g _ gs _ ht h =>
      have hg : g.seenElse = false := hopen ht fun m hm => by cases hm
      refine ⟨⟨g :: gs, .elseIf gs hg hg⟩, fun gs' hstep => ?_⟩
      cases hstep with
      | elseIf _ _ hg' =>
        refine .cons (fun he => ?_) h
        rw [hg'] at he
        cases he
  · cases hadd
    cases h with
    | @cons g _ gs _ ht h =>
      have hg : g.seenElse = false := hopen ht fun m hm => by cases hm
      refine ⟨⟨{ g with seenElse := true } :: gs, .otherwise gs hg rfl⟩, fun gs' hstep => ?_⟩
      cases hstep
      exact .cons (fun _ => ⟨_, rfl⟩) h
  · cases hadd
    cases h with
    | @cons g _ gs _ ht h =>
      refine ⟨⟨gs, .endIf g gs⟩, fun gs' hstep => ?_⟩
      cases hstep
      exact h
  · cases hadd

/-! ### Whole runs -/

variable {depth : Nat} {is : List Item}

/-- **Groups match where a run succeeds.** -/
theorem exists_read?_of_runItems (h : runItems (fun _ => none) depth e s is = .ok s')
    (hs' : s'.groups = []) :
    ∃ r, Frames.read? is {} = some r ∧ Covers s.groups r.behind := by
  induction is generalizing s with
  | nil =>
    cases h
    rw [hs']
    exact ⟨{}, rfl, .nil⟩
  | cons i is ih =>
    rw [runItems_cons] at h
    obtain ⟨s₁, hi, hrest⟩ := bind_eq_ok.mp h
    obtain ⟨r, hr, hcovers⟩ := ih hrest
    have hstep := groupStep_of_step hi
    rw [role_eq_partRole] at hstep
    obtain ⟨r', hadd, hcovers'⟩ := hcovers.exists_add? hstep
    refine ⟨r', ?_, hcovers'⟩
    rw [Frames.read?, hr]
    exact hadd

/-- **Groups do not fail to match where they are nested.** -/
theorem runItems_of_read? (depth : Nat) (e : Entry) {r : Frames} (h : Frames.read? is {} = some r)
    (hcovers : Covers s.groups r.behind) :
    Untouched [] (runItems (fun _ => none) depth e s is) := by
  induction is generalizing s r with
  | nil =>
    cases h
    exact .ok (List.forall₂_nil_right_iff.mp hcovers)
  | cons i is ih =>
    obtain ⟨r₁, hr, hadd⟩ := Option.bind_eq_some_iff.mp h
    obtain ⟨⟨gs', hstep⟩, hall⟩ := hcovers.of_add? hadd
    rw [← role_eq_partRole] at hstep hall
    rw [runItems_cons]
    cases hi : step (fun _ => none) (Preprocessed.descend (fun _ => none) depth) e s i with
    | error stop =>
      refine .error ?_
      by_contra hunmatched
      exact not_groupStep_of_step hi (by simpa using hunmatched) hstep
    | ok s₁ => exact ih hr (hall _ (groupStep_of_step hi))

end Preprocessed

/-! ### Nested groups elsewhere in a text -/

theorem Item.role_eq_of_content {i j : Item} (h : i.content = j.content) : i.role = j.role := by
  cases i with
  | region =>
    cases j <;> cases h
    rfl
  | directive =>
    cases j <;> cases h
    rfl

theorem exists_mark {r : Directive.Role} {m : Mark r} {j : Item} (h : m.item.content = j.content) :
    ∃ m' : Mark r, m'.item = j := by
  cases j with
  | region => cases h
  | directive offset command =>
    cases h
    exact ⟨⟨offset, m.command, m.role_eq⟩, rfl⟩

mutual

/-- Items that differ from those of a forest in their offsets make up a forest. -/
theorem Forest.exists_of_content (f : Forest) {js : List Item}
    (h : f.items.map Item.content = js.map Item.content) : ∃ f' : Forest, f'.items = js := by
  match f with
  | .nil => exact ⟨.nil, (List.map_eq_nil_iff.mp h.symm).symm⟩
  | .plain i hi rest =>
    obtain ⟨j, js, rfl, hj, hjs⟩ := List.map_eq_cons_iff.mp h.symm
    obtain ⟨f', rfl⟩ := rest.exists_of_content hjs.symm
    exact ⟨.plain j ((Item.role_eq_of_content hj).trans hi) f', rfl⟩
  | .group head body tail rest =>
    obtain ⟨j, js, rfl, hj, hjs⟩ := List.map_eq_cons_iff.mp h.symm
    rw [List.map_append, List.map_append] at hjs
    obtain ⟨js₁, js', rfl, h₁, h'⟩ := List.map_eq_append_iff.mp hjs
    obtain ⟨js₂, js₃, rfl, h₂, h₃⟩ := List.map_eq_append_iff.mp h'
    obtain ⟨head', rfl⟩ := exists_mark hj.symm
    obtain ⟨body', rfl⟩ := body.exists_of_content h₁.symm
    obtain ⟨tail', rfl⟩ := tail.exists_of_content h₂.symm
    obtain ⟨rest', rfl⟩ := rest.exists_of_content h₃.symm
    exact ⟨.group head' body' tail' rest', rfl⟩

theorem Tail.exists_of_content (t : Tail) {js : List Item}
    (h : t.items.map Item.content = js.map Item.content) : ∃ t' : Tail, t'.items = js := by
  match t with
  | .endIf m =>
    obtain ⟨j, js, rfl, hj, hjs⟩ := List.map_eq_cons_iff.mp h.symm
    obtain ⟨m', rfl⟩ := exists_mark hj.symm
    obtain rfl := List.map_eq_nil_iff.mp hjs
    exact ⟨.endIf m', rfl⟩
  | .otherwise m body close =>
    obtain ⟨j, js, rfl, hj, hjs⟩ := List.map_eq_cons_iff.mp h.symm
    rw [List.map_append] at hjs
    obtain ⟨js₁, js', rfl, h₁, h'⟩ := List.map_eq_append_iff.mp hjs
    obtain ⟨j', js'', rfl, hj', hnil⟩ := List.map_eq_cons_iff.mp h'
    obtain rfl := List.map_eq_nil_iff.mp hnil
    obtain ⟨m', rfl⟩ := exists_mark hj.symm
    obtain ⟨body', rfl⟩ := body.exists_of_content h₁.symm
    obtain ⟨close', rfl⟩ := exists_mark hj'.symm
    exact ⟨.otherwise m' body' close', rfl⟩
  | .elseIf m body tail =>
    obtain ⟨j, js, rfl, hj, hjs⟩ := List.map_eq_cons_iff.mp h.symm
    rw [List.map_append] at hjs
    obtain ⟨js₁, js₂, rfl, h₁, h₂⟩ := List.map_eq_append_iff.mp hjs
    obtain ⟨m', rfl⟩ := exists_mark hj.symm
    obtain ⟨body', rfl⟩ := body.exists_of_content h₁.symm
    obtain ⟨tail', rfl⟩ := tail.exists_of_content h₂.symm
    exact ⟨.elseIf m' body' tail', rfl⟩

end

/-- Items in front that have nothing to do with groups do not matter. -/
theorem exists_forest_append_iff {is js : List Item} (h : ∀ i ∈ is, i.role = .plain) :
    (∃ f : Forest, f.items = is ++ js) ↔ ∃ f : Forest, f.items = js := by
  induction is with
  | nil => rfl
  | cons i is ih =>
    have hi := h i (List.mem_cons_self ..)
    rw [← ih fun j hj => h j (List.mem_cons_of_mem _ hj)]
    constructor
    · rintro ⟨f, hf⟩
      cases f with
      | nil => cases hf
      | plain j hj rest =>
        obtain ⟨-, hrest⟩ := List.cons.inj hf
        exact ⟨rest, hrest⟩
      | group head body tail rest =>
        obtain ⟨hhead, -⟩ := List.cons.inj hf
        rw [← hhead, Mark.item, Item.role, head.role_eq] at hi
        cases hi
    · rintro ⟨f, hf⟩
      exact ⟨.plain i hi f, congrArg (i :: ·) hf⟩

namespace Preprocessed

/-- **A text in which nothing is included does not fail to match groups if these are
nested, and it fails if they are not.** -/
theorem run_standalone (name : Option String) (text : Text) :
    (Nested (Comment.blank text) → ∀ error,
      (run (fun _ => none) name text).result = .error error → error.reason.isUnmatched = false) ∧
    (¬Nested (Comment.blank text) → ∃ error,
      (run (fun _ => none) name text).result = .error error) := by
  rw [run, runMain_eq]
  have hcode : (mainEntry name text).file.code = Comment.blank text := rfl
  rw [hcode]
  constructor
  · rintro ⟨f, hf⟩ error herror
    have hread : Frames.read? (Item.ofText (Comment.blank text)) {} = some ⟨f, []⟩ := by
      rw [← hf]
      exact f.read?_items []
    have hitems := runItems_of_read? maxIncludeDepth (mainEntry name text)
      (s := startState name text) hread .nil
    cases hrun : runItems (fun _ => none) maxIncludeDepth (mainEntry name text)
        (startState name text) (Item.ofText (Comment.blank text)) with
    | error stop =>
      rw [hrun] at herror hitems
      cases herror
      cases hitems with
      | error hstop => exact hstop
    | ok s =>
      rw [hrun] at hitems
      cases hitems with
      | ok hgroups =>
        rw [hrun, ok_bind, hgroups] at herror
        cases herror
  · intro hnested
    cases hrun : runItems (fun _ => none) maxIncludeDepth (mainEntry name text)
        (startState name text) (Item.ofText (Comment.blank text)) with
    | error stop => exact ⟨_, rfl⟩
    | ok s =>
      rw [ok_bind]
      by_cases hempty : s.groups.isEmpty = true
      · obtain ⟨⟨f, behind⟩, hread, hcovers⟩ :=
          exists_read?_of_runItems hrun (List.isEmpty_iff.mp hempty)
        cases hcovers
        refine absurd ⟨f, ?_⟩ hnested
        simpa [Frames.items, Forest.items] using Frames.items_of_read? hread
      · rw [if_neg hempty]
        exact ⟨_, rfl⟩

end Preprocessed

/-! ### Shaders -/

/-- What follows the `#include` in the file of a shader. -/
def Shader.copied (o : Options) (f : Function) : Text :=
  '\n' :: (Shader.renderSignature o o.entryPoint f.signature ++ '\n' :: f.body ++ ['\n'])

/-- What stands in front of the `#include` in the file of a shader. -/
def Shader.front : Text := "// SM: 4_1, 5_0\n\n".toList

theorem Shader.complete_front : Complete Shader.front :=
  ⟨by rintro c ⟨⟩; rfl, by decide, by cbv⟩

theorem Shader.renderFile_eq (f : Function) :
    Shader.renderFile {} f =
      Preprocessed.including "UnityCG.cginc".toList Shader.front (Shader.copied {} f) := by
  rw [Shader.renderFile, Shader.copied]
  generalize Shader.renderSignature {} _ f.signature = signature
  rw [List.append_assoc signature, List.append_assoc, List.append_assoc, List.append_assoc]
  rfl

/-- Nothing in front of what is copied has to do with groups. -/
theorem nested_renderFile_iff (f : Function) :
    Nested (Comment.blank (Shader.renderFile {} f)) ↔
      Nested (Comment.blank (Shader.copied {} f)) := by
  have hline := isLine_includeLine (f := "UnityCG.cginc".toList) (by decide) (by decide)
  have hplain : ∀ i ∈ Item.ofLines 0 (codeLines Shader.front), i.role = .plain := by
    have hitems : Item.ofLines 0 (codeLines Shader.front) =
        [.region 0 "               \n\n".toList] := by cbv
    rw [hitems]
    intro i hi
    cases List.mem_singleton.mp hi
    rfl
  have hinclude : ∀ i ∈ [Item.directive
      (offsetAfter 0 Shader.front ((includeLine "UnityCG.cginc".toList).takeWhile isSpace))
      (.ofLines [includeLine "UnityCG.cginc".toList])], i.role = .plain := by
    intro i hi
    cases List.mem_singleton.mp hi
    rw [Item.role, hline.directive]
    rfl
  have hitems := Shader.complete_front.ofLines_append hline 0 (Shader.copied {} f)
  change Item.ofLines 0 (codeLines (Preprocessed.including _ _ _)) = _ at hitems
  rw [← Shader.renderFile_eq] at hitems
  have hforest : Nested (Comment.blank (Shader.renderFile {} f)) ↔ ∃ g : Forest, g.items =
      Item.ofLines (offsetAfter 0 Shader.front
        (includeLine "UnityCG.cginc".toList)) (codeLines (Shader.copied {} f)) := by
    rw [Nested, Item.ofText]
    change (∃ g : Forest, g.items = Item.ofLines 0 (codeLines (Shader.renderFile {} f))) ↔ _
    rw [hitems, exists_forest_append_iff hplain]
    exact exists_forest_append_iff hinclude
  rw [hforest]
  constructor
  · rintro ⟨g, hg⟩
    exact g.exists_of_content (hg ▸ Item.map_content_ofLines _ _ _)
  · rintro ⟨g, hg⟩
    exact g.exists_of_content (hg ▸ Item.map_content_ofLines _ _ _)

/-- The functions of a source, if its shaders can be generated. -/
theorem exists_of_generate {load : String → Option Text} {o : Options} {name : String}
    {text : Text} {shaders : Shaders} (h : (generate load o name text).result = .ok shaders) :
    ∃ p ds, (Preprocessed.run load (some name) text).result = .ok p ∧ outline p = .ok ds ∧
      shaders = Shaders.ofFunctions o (functions ds) := by
  unfold generate at h
  simp only at h
  split at h
  · cases h
  · next p hp =>
    split at h
    · cases h
    · next ds hds =>
      cases h
      exact ⟨p, ds, hp, hds, rfl⟩

theorem exists_of_mem_shaders {o : Options} {fs : List Function} {s : Shader}
    (h : s ∈ (Shaders.ofFunctions o fs).shaders) :
    ∃ f ∈ fs, f.signature.params.length ≤ o.maxParams ∧ s.name = f.signature.name ∧
      s.text = Shader.renderFile o f := by
  obtain ⟨f, hf, hs⟩ := List.mem_filterMap.mp h
  refine ⟨f, hf, ?_⟩
  unfold Shader.render at hs
  split at hs
  · cases hs
  · next hlen =>
    cases hs
    exact ⟨Nat.le_of_not_lt hlen, rfl, rfl⟩

/-! ### Sources with one declaration -/

/-- A function that has not too many parameters has a shader. -/
theorem ofFunctions_singleton {f : Function} (h : f.signature.params.length ≤ 26) :
    Shaders.ofFunctions {} [f] =
      ⟨[⟨f.signature.name, Shader.renderFile {} f, Shader.renderConsole {} f⟩], []⟩ := by
  have hlength : ¬f.signature.params.length > 26 := Nat.not_lt.mpr h
  simp [Shaders.ofFunctions, Shader.render, Shaders.shader?, Shaders.skipped?, hlength]

theorem mem_shaders_singleton {f : Function} (h : f.signature.params.length ≤ 26) :
    ⟨f.signature.name, Shader.renderFile {} f, Shader.renderConsole {} f⟩ ∈
      (Shaders.ofFunctions {} [f]).shaders := by
  rw [ofFunctions_singleton h]
  exact List.mem_singleton_self _

/-- The declarations that the tokens make up if there are less than `n` of them. -/
def declsWithin (p : Preprocessed) : Nat → List Lexeme → Option (List Decl)
  | 0, _ => none
  | n + 1, ts =>
    if Decl.atEnd ts then some []
    else
      match Decl.Grammar.declaration p ts with
      | .error _ => none
      | .ok (d, rest) => (declsWithin p n rest).map (d :: ·)

theorem declarations_of_declsWithin {p : Preprocessed} {n : Nat} {ts : List Lexeme}
    {ds : List Decl} (h : declsWithin p n ts = some ds) :
    Decl.Grammar.declarations p ts = .ok ds := by
  induction n generalizing ts ds with
  | zero => cases h
  | succ n ih =>
    rw [declsWithin] at h
    rw [Decl.Grammar.declarations]
    by_cases hend : Decl.atEnd ts = true
    · rw [if_pos hend] at h ⊢
      cases h
      rfl
    · rw [if_neg hend] at h ⊢
      split at h
      · cases h
      · next d rest hd =>
        obtain ⟨ds, hds, rfl⟩ := Option.map_eq_some_iff.mp h
        split
        · next heq =>
          cases heq.symm.trans hd
          rw [ih hds]
          rfl
        · next heq => cases heq.symm.trans hd

/-- The declarations of a source of less than `n` tokens. -/
def decls? (load : String → Option Text) (name : String) (text : Text) (n : Nat) :
    Option (List Decl) :=
  (Preprocessed.run load (some name) text).result.toOption.bind fun p =>
    (Token.tokensWithin n 0 p.code).bind fun ts =>
      declsWithin p n (ts ++ [⟨.eof, ⟨Text.size p.code, Text.size p.code⟩⟩])

/-- The declarations are what is read from such a source. -/
theorem exists_of_decls? {load : String → Option Text} {name : String} {text : Text}
    {ds : List Decl} (n : Nat) (h : decls? load name text n = some ds) :
    ∃ p ts, (Preprocessed.run load (some name) text).result = .ok p ∧ Token.lex p = .ok ts ∧
      Decl.parse p ts = .ok ds := by
  obtain ⟨p, hp, h⟩ := Option.bind_eq_some_iff.mp h
  obtain ⟨ts, hts, h⟩ := Option.bind_eq_some_iff.mp h
  have hrun : (Preprocessed.run load (some name) text).result = .ok p := by
    cases hx : (Preprocessed.run load (some name) text).result with
    | error e =>
      rw [hx] at hp
      cases hp
    | ok p' =>
      rw [hx] at hp
      cases hp
      rfl
  have hlex : Token.lex p = .ok (ts ++ [⟨.eof, ⟨Text.size p.code, Text.size p.code⟩⟩]) := by
    rw [Token.lex, Token.tokens, Token.tokensFrom_of_tokensWithin hts]
  refine ⟨p, _, hrun, hlex, ?_⟩
  rw [Decl.parse, declarations_of_declsWithin h]
  rfl

theorem generate_of_decls? {load : String → Option Text} {name : String} {text : Text}
    {ds : List Decl} (n : Nat) (h : decls? load name text n = some ds) (o : Options) :
    (generate load o name text).result = .ok (Shaders.ofFunctions o (functions ds)) := by
  obtain ⟨p, ts, hp, hlex, hparse⟩ := exists_of_decls? n h
  have houtline : outline p = .ok ds := by
    rw [outline, hlex]
    simp only [hparse]
    rfl
  unfold generate
  simp only [hp, houtline]

/-- **A shader can be run as far as groups are concerned just if those that are copied into
it are nested.**  If they are, a run of the shader on its own does not fail because a
directive belongs to no group or because a group is not closed.  If they are not, it
fails. -/
theorem generate_standalone (load : String → Option Text) (name : String) (text : Text)
    {shaders : Shaders} (h : (generate load {} name text).result = .ok shaders) {s : Shader}
    (hs : s ∈ shaders.shaders) :
    ∃ p ds f, (Preprocessed.run load (some name) text).result = .ok p ∧ outline p = .ok ds ∧
      f ∈ functions ds ∧ s.text = Shader.renderFile {} f ∧
      (Nested (Comment.blank (Shader.copied {} f)) → ∀ error,
        (Preprocessed.run (fun _ => none) none s.text).result = .error error →
          error.reason.isUnmatched = false) ∧
      (¬Nested (Comment.blank (Shader.copied {} f)) → ∃ error,
        (Preprocessed.run (fun _ => none) none s.text).result = .error error) := by
  obtain ⟨p, ds, hp, hds, rfl⟩ := exists_of_generate h
  obtain ⟨f, hf, -, -, htext⟩ := exists_of_mem_shaders hs
  refine ⟨p, ds, f, hp, hds, hf, htext, ?_⟩
  rw [htext, ← nested_renderFile_iff]
  exact Preprocessed.run_standalone none _

/-- A function with a group in its body. -/
def groupSource : Text := "float f() \x7b\n#if 1\nreturn 1;\n#endif\n\x7d\n".toList

/-- The function as it is read. -/
def groupFunction : Function :=
  { signature := ⟨"f", ⟨some "f", 1, 7⟩, ⟨"float".toList, false⟩, [], none, []⟩
    body := "\x7b\n#if 1\nreturn 1;\n#endif\n\x7d".toList
    span := ⟨10, 23⟩ }

theorem decls?_groupSource :
    decls? (fun _ => none) "f" groupSource 12 = some [.function groupFunction] := by
  cbv

theorem generate_standalone_group :
    ∃ p ds f, (Preprocessed.run (fun _ => none) (some "f") groupSource).result = .ok p ∧
      outline p = .ok ds ∧ f ∈ functions ds ∧
      Shader.renderFile {} groupFunction = Shader.renderFile {} f ∧
      (Nested (Comment.blank (Shader.copied {} f)) → ∀ error,
        (Preprocessed.run (fun _ => none) none (Shader.renderFile {} groupFunction)).result =
          .error error → error.reason.isUnmatched = false) ∧
      (¬Nested (Comment.blank (Shader.copied {} f)) → ∃ error,
        (Preprocessed.run (fun _ => none) none (Shader.renderFile {} groupFunction)).result =
          .error error) :=
  generate_standalone (fun _ => none) "f" groupSource
    (generate_of_decls? 12 decls?_groupSource {}) (mem_shaders_singleton (by decide))

/-- A function that is closed in each branch of a group. -/
def splitSource : Text :=
  "float f() \x7b\n#if 1\nreturn 1; \x7d\n#else\nreturn 2; \x7d\n#endif\n".toList

/-- The function as it is read: the body is cut off in the middle of the group. -/
def splitFunction : Function :=
  { groupFunction with body := "\x7b\n#if 1\nreturn 1; \x7d".toList }

theorem decls?_splitSource :
    decls? (fun _ => none) "f" splitSource 12 = some [.function splitFunction] := by
  cbv

/-- **Not every shader can be run as far as groups are concerned.** -/
theorem exists_not_standalone :
    ¬∀ (load : String → Option Text) (name : String) (text : Text) (shaders : Shaders) (s : Shader)
        (error : Preprocessed.Error),
      (generate load {} name text).result = .ok shaders → s ∈ shaders.shaders →
        (Preprocessed.run (fun _ => none) none s.text).result = .error error →
          error.reason.isUnmatched = false := by
  intro h
  have htext : Shader.renderFile {} splitFunction =
      ("// SM: 4_1, 5_0\n\n#include \"UnityCG.cginc\"\n\nfloat PSMain() : SV_TARGET\n" ++
        "\x7b\n#if 1\nreturn 1; \x7d\n").toList := by
    rfl
  have hrun : (Preprocessed.run (fun _ => none) none (Shader.renderFile {} splitFunction)).result =
      .error ⟨.groupNotClosed, ⟨none, 9, 1⟩⟩ := by
    rw [htext]
    cbv
  have hunmatched := h _ _ _ _ _ _ (generate_of_decls? 12 decls?_splitSource {})
    (mem_shaders_singleton (by decide)) hrun
  cases hunmatched

end PixelWrap
