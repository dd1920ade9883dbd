import PixelWrap.Proofs.Machine
import PixelWrap.Proofs.SourceOrder
import PixelWrap.Proofs.Standalone

/-!
# Where directives fail to match

A run goes through directives in several files, and in text that is not active it passes over
their conditions.  Whether a directive belongs to a group does not depend on that.  The
directives that the run comes to are looked at as one sequence, whatever branches they stand
in: the run fails at the first of them that cannot stand in properly nested groups after the
ones before it, and where all can, it fails at the end just if a group is left open.

## Main definitions

* `Grouped`: items make up properly nested groups.
* `Extendable`: items are the front of properly nested groups.
* `Preprocessed.Moves`: what items one after the other do to the open groups.
* `Preprocessed.Meets`: the directives of groups that a run comes to, in order.
* `Preprocessed.FailsToMatch`: the run fails at a visit since the directive belongs to no group.
* `Preprocessed.Verdict`: the ways in which a run can end.

## Main results

* `Preprocessed.extendable_iff`, `Preprocessed.grouped_iff_of_moves`: open groups tell what
  sequences can be extended, and to what.
* `Preprocessed.Machine.Reaches.moves`: a run moves the open groups as its items say.
* `Preprocessed.exists_verdict`: every run ends in one of these ways.
* `Preprocessed.runMain_unmatched_iff`: **a run fails to match exactly where its directives are
  not nested.**
-/

namespace PixelWrap

/-- The items make up groups that are nested properly. -/
def Grouped (is : List Item) : Prop := ∃ f : Forest, f.items = is

/-- The items can be followed by others so that the groups are nested properly. -/
def Extendable (is : List Item) : Prop := ∃ more, Grouped (is ++ more)

theorem Extendable.of_append {is js : List Item} (h : Extendable (is ++ js)) : Extendable is := by
  obtain ⟨more, hmore⟩ := h
  exact ⟨js ++ more, by rwa [← List.append_assoc]⟩

theorem grouped_iff_read? {is : List Item} :
    Grouped is ↔ ∃ f, Frames.read? is {} = some ⟨f, []⟩ := by
  constructor
  · rintro ⟨f, rfl⟩
    exact ⟨f, f.read?_items []⟩
  · rintro ⟨f, hf⟩
    refine ⟨f, ?_⟩
    simpa [Frames.items, Forest.items] using Frames.items_of_read? hf

namespace Preprocessed

variable {load : String → Option Text} {descend : Descend} {e : Entry} {s s' : State} {i : Item}
  {is js : List Item} {gs gs' : Groups} {stop : Stop}

/-! ### Sequences of items -/

/-- What the items do to the open groups one after the other. -/
inductive Moves : List Item → Groups → Groups → Prop
  | nil (gs : Groups) : Moves [] gs gs
  | cons {i : Item} {is : List Item} {gs gs₁ gs' : Groups} : GroupStep i.role gs gs₁ →
      Moves is gs₁ gs' → Moves (i :: is) gs gs'

theorem Moves.append {gs₁ : Groups} (h : Moves is gs gs₁) (h' : Moves js gs₁ gs') :
    Moves (is ++ js) gs gs' := by
  induction h with
  | nil => exact h'
  | cons hstep _ ih => exact .cons hstep (ih h')

/-- Items that have nothing to do with groups do not move them. -/
theorem Moves.filter (h : Moves is gs gs') :
    Moves (is.filter fun i => decide (i.role ≠ .plain)) gs gs' := by
  induction h with
  | nil gs => exact .nil gs
  | @cons i is gs gs₁ gs' hstep _ ih =>
    by_cases hi : i.role = .plain
    · rw [List.filter_cons_of_neg (by simp [hi])]
      rw [hi] at hstep
      cases hstep
      exact ih
    · rw [List.filter_cons_of_pos (by simp [hi])]
      exact .cons hstep ih

/-- What the items do to the groups, reading them from the end on undoes. -/
theorem Moves.exists_read? (h : Moves is gs gs') {r : Frames} (hr : Frames.read? js {} = some r)
    (hcovers : Covers gs' r.behind) :
    ∃ r', Frames.read? (is ++ js) {} = some r' ∧ Covers gs r'.behind := by
  induction h with
  | nil => exact ⟨r, hr, hcovers⟩
  | cons hstep _ ih =>
    obtain ⟨r₁, hr₁, hcovers₁⟩ := ih hcovers
    rw [role_eq_partRole] at hstep
    obtain ⟨r', hadd, hcovers'⟩ := hcovers₁.exists_add? hstep
    refine ⟨r', ?_, hcovers'⟩
    rw [List.cons_append, Frames.read?, hr₁]
    exact hadd

/-- Items that can be read from the end on can move the groups, and however they do, the rest
still closes what is open. -/
theorem moves_of_read? {r : Frames} (hr : Frames.read? (is ++ js) {} = some r)
    (hcovers : Covers gs r.behind) :
    (∃ gs', Moves is gs gs') ∧
      ∀ gs', Moves is gs gs' → ∃ r', Frames.read? js {} = some r' ∧ Covers gs' r'.behind := by
  induction is generalizing gs r with
  | nil =>
    refine ⟨⟨gs, .nil gs⟩, fun gs' hmoves => ?_⟩
    cases hmoves
    exact ⟨r, hr, hcovers⟩
  | cons i is ih =>
    obtain ⟨r₁, hr₁, hadd⟩ := Option.bind_eq_some_iff.mp hr
    obtain ⟨⟨gs₁, hstep⟩, hall⟩ := hcovers.of_add? hadd
    rw [← role_eq_partRole] at hstep hall
    constructor
    · obtain ⟨⟨gs', hmoves⟩, -⟩ := ih hr₁ (hall gs₁ hstep)
      exact ⟨gs', .cons hstep hmoves⟩
    · intro gs' hmoves
      cases hmoves with
      | cons hstep' hrest => exact (ih hr₁ (hall _ hstep')).2 gs' hrest

/-- Open groups can be closed. -/
theorem exists_closing (gs : Groups) :
    ∃ more r, Frames.read? more {} = some r ∧ Covers gs r.behind := by
  induction gs with
  | nil => exact ⟨[], {}, rfl, .nil⟩
  | cons g gs ih =>
    obtain ⟨more, r, hr, hcovers⟩ := ih
    let close : Mark .endIf := ⟨0, ⟨"endif".toList⟩, by decide +kernel⟩
    obtain ⟨r', hadd, hcovers'⟩ := hcovers.exists_add? (p := .endIf close) (.endIf g gs)
    refine ⟨close.item :: more, r', ?_, hcovers'⟩
    rw [← hadd]
    exact (Frames.read?_item (.endIf close) more {}).trans (by rw [hr]; rfl)

/-- **Items are the front of nested groups just if they can move the groups.** -/
theorem extendable_iff : Extendable is ↔ ∃ gs, Moves is [] gs := by
  constructor
  · rintro ⟨more, hmore⟩
    obtain ⟨f, hf⟩ := grouped_iff_read?.mp hmore
    exact (moves_of_read? hf .nil).1
  · rintro ⟨gs, hmoves⟩
    obtain ⟨more, r, hr, hcovers⟩ := exists_closing gs
    obtain ⟨⟨f, behind⟩, hread, hnil⟩ := hmoves.exists_read? hr hcovers
    cases hnil
    exact ⟨more, grouped_iff_read?.mpr ⟨f, hread⟩⟩

/-- **They are nested groups just if they leave none open.** -/
theorem grouped_iff_of_moves (h : Moves is [] gs) : Grouped is ↔ gs = [] := by
  rw [grouped_iff_read?]
  constructor
  · rintro ⟨f, hf⟩
    rw [← List.append_nil is] at hf
    obtain ⟨r, hr, hcovers⟩ := (moves_of_read? hf .nil).2 gs h
    cases hr
    exact List.forall₂_nil_right_iff.mp hcovers
  · rintro rfl
    have hnone : Frames.read? [] {} = some {} := rfl
    obtain ⟨⟨f, behind⟩, hread, hnil⟩ := h.exists_read? hnone .nil
    cases hnil
    rw [List.append_nil] at hread
    exact ⟨f, hread⟩

/-- A further item can follow just if it can move the groups that are open. -/
theorem extendable_concat_iff (h : Moves is [] gs) :
    Extendable (is ++ [i]) ↔ ∃ gs', GroupStep i.role gs gs' := by
  constructor
  · rintro ⟨more, hmore⟩
    obtain ⟨f, hf⟩ := grouped_iff_read?.mp hmore
    rw [List.append_assoc] at hf
    obtain ⟨r, hr, hcovers⟩ := (moves_of_read? hf .nil).2 gs h
    obtain ⟨⟨gs', hmoves⟩, -⟩ := moves_of_read? hr hcovers
    cases hmoves with
    | cons hstep _ => exact ⟨_, hstep⟩
  · rintro ⟨gs', hstep⟩
    exact extendable_iff.mpr ⟨gs', h.append (.cons hstep (.nil gs'))⟩

end Preprocessed

/-! ### Steps that fail -/

/-- Why a directive fails that belongs to no group. -/
def Directive.Role.unmatched? : Directive.Role → Option Preprocessed.Reason
  | .elseIf => some .elifNotMatched
  | .otherwise => some .elseNotMatched
  | .endIf => some .endIfNotMatched
  | .plain | .opens => none

namespace Preprocessed

variable {load : String → Option Text} {descend : Descend} {e : Entry} {s s' : State} {i : Item}
  {is js : List Item} {gs gs' : Groups} {stop : Stop} {reason : Reason} {r : Directive.Role}

theorem isUnmatched_of_unmatched? (h : r.unmatched? = some reason) :
    reason.isUnmatched = true ∧ reason ≠ .groupNotClosed := by
  cases r <;> cases h <;> exact ⟨rfl, nofun⟩

theorem unmatched?_of_regroup {macros : Macro.Table} {c : Command} {d : Directive}
    (h : regroup macros gs c d = .error reason) (hstep : ∀ gs', ¬GroupStep d.role gs gs') :
    d.role.unmatched? = some reason := by
  cases d with
  | ifHolds | ifDefined => exact absurd (.opens gs rfl) (hstep (waiting :: gs))
  | elseIf condition =>
    cases gs with
    | nil =>
      cases h
      rfl
    | cons g gs =>
      cases hg : g.seenElse with
      | false => exact absurd (.elseIf gs hg hg) (hstep (g :: gs))
      | true =>
        simp only [regroup, Groups.needsCondition?, hg, if_true] at h
        cases h
        rfl
  | otherwise =>
    cases gs with
    | nil =>
      cases h
      rfl
    | cons g gs =>
      cases hg : g.seenElse with
      | false => exact absurd (.otherwise gs hg rfl) (hstep ({ g with seenElse := true } :: gs))
      | true =>
        simp only [regroup, Groups.otherwise?, hg, if_true] at h
        cases h
        rfl
  | endIf =>
    cases gs with
    | nil =>
      cases h
      rfl
    | cons g gs => exact absurd (.endIf g gs) (hstep gs)
  | includeFile | define | undefine | message | ignored | unknown =>
    exact absurd (.plain gs) (hstep gs)

/-- **A directive that cannot move the groups fails, and says so.** -/
theorem unmatched_of_step (h : step load descend e s i = .error stop)
    (hstep : ∀ gs', ¬GroupStep i.role s.groups gs') :
    ∃ reason, i.role.unmatched? = some reason ∧ .error stop = s.fail e i.start reason := by
  cases i with
  | region => exact absurd (.plain s.groups) (hstep s.groups)
  | directive offset command =>
    rw [step] at h
    cases hg : regroup s.macros s.groups command (Directive.ofCommand command) with
    | error reason =>
      rw [hg] at h
      exact ⟨reason, unmatched?_of_regroup hg hstep, h.symm⟩
    | ok gs => exact absurd (groupStep_of_regroup hg) (hstep gs)

/-! ### Runs -/

namespace Machine

variable {m m₁ : Machine} {us vs : List Visit} {r : Except Stop State}

/-- A step moves the open groups as the item says that it visits. -/
theorem moves_of_goesOn (h : m.next load = .goesOn m₁) :
    Moves (m.visit?.toList.map Visit.item) m.state.groups m₁.state.groups := by
  obtain ⟨f, fs, hitems, -, rfl⟩ | ⟨i, is, offset, entry, hitems, hl, rfl⟩ |
    ⟨i, is, s, hitems, -, hs, rfl⟩ := cases_of_goesOn h
  · rw [visit?_nil hitems]
    exact .nil _
  · rw [visit?_cons hitems]
    obtain ⟨-, file, text, hr, -⟩ := loaded?_eq_some.mp hl
    obtain ⟨command, operands, rfl, -, hd, -⟩ := requested?_eq_some hr
    refine .cons ?_ (.nil _)
    show GroupStep (Directive.ofCommand command).role _ m.state.groups
    rw [hd]
    exact .plain _
  · rw [visit?_cons hitems]
    exact .cons (groupStep_of_step hs) (.nil _)

/-- **A run moves the open groups as its items say.** -/
theorem Reaches.moves (h : Reaches load m us m₁) :
    Moves (us.map Visit.item) m.state.groups m₁.state.groups := by
  induction h with
  | refl => exact .nil _
  | step hm _ ih =>
    rw [List.map_append]
    exact (moves_of_goesOn hm).append ih

theorem Ends.exists_reaches (h : Ends load m vs r) :
    ∃ us m₁, Reaches load m us m₁ ∧ m₁.next load = .ends r ∧ vs = us ++ m₁.visit?.toList := by
  induction h with
  | @stop m r hm => exact ⟨[], m, .refl m, hm, rfl⟩
  | step hm _ ih =>
    obtain ⟨us, m₁, hreaches, hend, rfl⟩ := ih
    exact ⟨_, m₁, .step hm hreaches, hend, (List.append_assoc ..).symm⟩

end Machine

/-- The visited item is a directive of a group. -/
def Visit.isConditional (v : Visit) : Bool := decide (v.item.role ≠ .plain)

/-- The run of a main file comes to these directives of groups, in this order. -/
def Meets (load : String → Option Text) (name : Option String) (text : Text) (ds : List Visit) :
    Prop :=
  ∃ vs, Machine.Ends load (.start name text) vs (runMain load name text) ∧
    ds = vs.filter Visit.isConditional

/-- The run of a main file fails at the visit, since its directive belongs to no group. -/
def FailsToMatch (load : String → Option Text) (name : Option String) (text : Text) (v : Visit) :
    Prop :=
  ∃ reason, v.item.role.unmatched? = some reason ∧
    runMain load name text = v.state.fail v.entry v.item.start reason

section Verdict

variable {name : Option String} {text : Text} {us vs : List Visit} {m : Machine} {v : Visit}

theorem filter_isConditional (vs : List Visit) :
    (vs.filter Visit.isConditional).map Visit.item =
      (vs.map Visit.item).filter fun i => decide (i.role ≠ .plain) := by
  rw [List.filter_map]
  rfl

theorem failsToMatch_error (h : FailsToMatch load name text v) :
    ∃ stop, runMain load name text = .error stop ∧ stop.error.reason.isUnmatched = true ∧
      stop.error.reason ≠ .groupNotClosed := by
  obtain ⟨reason, hreason, hrun⟩ := h
  exact ⟨_, hrun, isUnmatched_of_unmatched? hreason⟩

/-- How a run ends, as far as the directives are concerned that it comes to: at the end of the
main file, for another reason, or at the last one of them. -/
inductive Verdict (load : String → Option Text) (name : Option String) (text : Text) :
    List Visit → Prop
  | finished {vs : List Visit} {s : State} : Moves (vs.map Visit.item) [] s.groups →
      runMain load name text = Machine.finish (mainEntry name text) s → Verdict load name text vs
  | failed {vs : List Visit} {gs : Groups} {stop : Stop} : Moves (vs.map Visit.item) [] gs →
      runMain load name text = .error stop → stop.error.reason.isUnmatched = false →
      Verdict load name text vs
  | unmatched {vs : List Visit} {v : Visit} {gs : Groups} : Moves (vs.map Visit.item) [] gs →
      (∀ gs', ¬GroupStep v.item.role gs gs') → FailsToMatch load name text v →
      Verdict load name text (vs ++ [v])

/-- **Every run ends in one of these ways.** -/
theorem exists_verdict (load : String → Option Text) (name : Option String) (text : Text) :
    ∃ ds, Meets load name text ds ∧ Verdict load name text ds := by
  obtain ⟨vs, hends, -⟩ := Machine.ends_runMain load name text
  obtain ⟨us, m, hreaches, hend, rfl⟩ := hends.exists_reaches
  refine ⟨_, ⟨_, hends, rfl⟩, ?_⟩
  have hmoves : Moves (us.map Visit.item) [] m.state.groups := hreaches.moves
  rw [List.filter_append]
  obtain ⟨hitems, hbelow, hr⟩ | ⟨i, is, stop, hitems, -, hs, hr⟩ := Machine.cases_of_ends hend
  · have hmain : m.top.entry = mainEntry name text := by
      have := hreaches.main_eq
      rwa [Machine.main, hbelow] at this
    rw [hmain] at hr
    refine .finished ?_ hr
    rw [Machine.visit?_nil hitems, Option.toList_none, List.filter_nil, List.append_nil,
      filter_isConditional]
    exact hmoves.filter
  · rw [Machine.visit?_cons hitems, Option.toList_some]
    by_cases hstep : ∃ gs', GroupStep i.role m.state.groups gs'
    · -- The item could have moved the groups, so it fails for another reason.
      obtain ⟨gs', hstep⟩ := hstep
      refine .failed (show Moves _ [] gs' from ?_) hr ?_
      · rw [← List.filter_append, filter_isConditional, List.map_append]
        exact (hmoves.append (.cons hstep (.nil gs'))).filter
      · by_contra hunmatched
        exact not_groupStep_of_step hs (by simpa using hunmatched) hstep
    · rw [not_exists] at hstep
      obtain ⟨reason, hreason, hstop⟩ := unmatched_of_step hs hstep
      have hconditional : ∀ v : Visit, v.item = i → Visit.isConditional v = true := by
        rintro v rfl
        refine decide_eq_true fun hplain => ?_
        rw [hplain] at hreason
        cases hreason
      rw [List.filter_cons_of_pos (hconditional _ rfl), List.filter_nil]
      have hmoves' := hmoves.filter
      rw [← filter_isConditional] at hmoves'
      exact .unmatched hmoves' hstep ⟨reason, hreason, hr.trans hstop⟩

variable {ds : List Visit}

theorem extendable_take (k : Nat) (h : Extendable (vs.map Visit.item)) :
    Extendable ((vs.take k).map Visit.item) := by
  rw [← List.take_append_drop k vs, List.map_append] at h
  exact h.of_append

/-- The only thing that can go wrong at the end of the main file is a group that is open. -/
theorem reason_of_finish {s : State} {stop : Stop}
    (h : Machine.finish (mainEntry name text) s = .error stop) :
    stop.error.reason = .groupNotClosed := by
  rw [Machine.finish] at h
  split at h
  · cases h
  · cases h
    rfl

/-- The directive after the first `k` belongs to no group just if it is the first one that
cannot be in a front of nested groups. -/
theorem Verdict.failsToMatch_iff (h : Verdict load name text ds) (k : Nat) (hk : k < ds.length) :
    FailsToMatch load name text ds[k] ∧ k + 1 = ds.length ↔
      Extendable ((ds.take k).map Visit.item) ∧
        ¬Extendable ((ds.take (k + 1)).map Visit.item) := by
  cases h with
  | finished hmoves hrun =>
    have hextendable := extendable_iff.mpr ⟨_, hmoves⟩
    refine ⟨fun ⟨h, _⟩ => ?_, fun ⟨_, h⟩ => absurd (extendable_take _ hextendable) h⟩
    obtain ⟨stop, hstop, -, hne⟩ := failsToMatch_error h
    exact absurd (reason_of_finish (hrun.symm.trans hstop)) hne
  | failed hmoves hrun hreason =>
    have hextendable := extendable_iff.mpr ⟨_, hmoves⟩
    refine ⟨fun ⟨h, _⟩ => ?_, fun ⟨_, h⟩ => absurd (extendable_take _ hextendable) h⟩
    obtain ⟨stop, hstop, hunmatched, -⟩ := failsToMatch_error h
    cases hrun.symm.trans hstop
    rw [hreason] at hunmatched
    cases hunmatched
  | @unmatched us v gs hmoves hstep hfails =>
    have hextendable := extendable_iff.mpr ⟨_, hmoves⟩
    have hlen : (us ++ [v]).length = us.length + 1 := by simp
    rcases Nat.lt_or_ge k us.length with hlt | hge
    · refine ⟨fun ⟨_, hlast⟩ => absurd hlast (by omega), fun ⟨_, h⟩ => absurd ?_ h⟩
      rw [List.take_append_of_le_length hlt]
      exact extendable_take _ hextendable
    · obtain rfl : k = us.length := by omega
      rw [List.take_of_length_le (Nat.le_of_eq hlen), List.take_left, List.map_append,
        List.map_singleton, extendable_concat_iff hmoves, not_exists]
      refine ⟨fun _ => ⟨hextendable, hstep⟩, fun _ => ⟨?_, hlen.symm⟩⟩
      rw [List.getElem_concat_length rfl]
      exact hfails

/-- A run that fails to match does so at the last directive, or at the end. -/
theorem Verdict.exists_failsToMatch (h : Verdict load name text ds) {stop : Stop}
    (hstop : runMain load name text = .error stop) (hreason : stop.error.reason.isUnmatched = true) :
    stop.error.reason = .groupNotClosed ∨ ∃ v ∈ ds.getLast?, FailsToMatch load name text v := by
  cases h with
  | finished _ hrun => exact .inl (reason_of_finish (hrun.symm.trans hstop))
  | failed _ hrun hother =>
    cases hrun.symm.trans hstop
    rw [hother] at hreason
    cases hreason
  | @unmatched us v _ _ _ hfails => exact .inr ⟨v, by simp, hfails⟩

/-- A group is left open just if nothing else is wrong and the directives are the front of
nested groups only. -/
theorem Verdict.groupNotClosed_iff (h : Verdict load name text ds) :
    (∃ s : State, runMain load name text =
        s.fail (mainEntry name text) (Text.size text) .groupNotClosed) ↔
      (∀ stop, runMain load name text = .error stop → stop.error.reason = .groupNotClosed) ∧
        Extendable (ds.map Visit.item) ∧ ¬Grouped (ds.map Visit.item) := by
  cases h with
  | @finished _ s hmoves hrun =>
    rw [grouped_iff_of_moves hmoves]
    constructor
    · rintro ⟨s', hs'⟩
      refine ⟨fun stop hstop => reason_of_finish (hrun.symm.trans hstop),
        extendable_iff.mpr ⟨_, hmoves⟩, fun hgroups => ?_⟩
      rw [hrun, Machine.finish, hgroups] at hs'
      cases hs'
    · rintro ⟨-, -, hgroups⟩
      refine ⟨s, ?_⟩
      rw [hrun, Machine.finish, if_neg (by simpa using hgroups)]
      rfl
  | @failed _ gs stop hmoves hrun hreason =>
    constructor
    · rintro ⟨s, hs⟩
      cases hrun.symm.trans hs
      cases hreason
    · rintro ⟨hclosed, -⟩
      rw [hclosed stop hrun] at hreason
      cases hreason
  | @unmatched us v gs hmoves hstep hfails =>
    obtain ⟨stop, hrun, -, hne⟩ := failsToMatch_error hfails
    constructor
    · rintro ⟨s, hs⟩
      cases hrun.symm.trans hs
      exact absurd rfl hne
    · rintro ⟨hclosed, -⟩
      exact absurd (hclosed stop hrun) hne

end Verdict

/-- **A run fails to match exactly where its directives are not nested.**  Of the directives
that it comes to, in active text or not and in all files, it fails at the one after the first
`k` since that belongs to no group, just if the first `k` are the front of nested groups and
the first `k + 1` are not; then it is the last one that the run comes to.  It fails for such a
reason nowhere else.  And it fails because a group is not closed, at the end of the main file,
just if nothing else is wrong and the directives are the front of nested groups without being
nested groups. -/
theorem runMain_unmatched_iff (load : String → Option Text) (name : Option String) (text : Text) :
    ∃ ds, Meets load name text ds ∧
      (∀ k, ∀ hk : k < ds.length,
        FailsToMatch load name text ds[k] ∧ k + 1 = ds.length ↔
          Extendable ((ds.take k).map Visit.item) ∧
          ¬Extendable ((ds.take (k + 1)).map Visit.item)) ∧
      (∀ stop, runMain load name text = .error stop → stop.error.reason.isUnmatched = true →
        stop.error.reason = .groupNotClosed ∨
          ∃ v ∈ ds.getLast?, FailsToMatch load name text v) ∧
      ((∃ s : State, runMain load name text =
          s.fail (mainEntry name text) (Text.size text) .groupNotClosed) ↔
        (∀ stop, runMain load name text = .error stop → stop.error.reason = .groupNotClosed) ∧
          Extendable (ds.map Visit.item) ∧ ¬Grouped (ds.map Visit.item)) := by
  obtain ⟨ds, hmeets, hverdict⟩ := exists_verdict load name text
  refine ⟨ds, hmeets, hverdict.failsToMatch_iff, ?_, hverdict.groupNotClosed_iff⟩
  intro stop hstop hreason
  exact hverdict.exists_failsToMatch hstop hreason

end Preprocessed

end PixelWrap
