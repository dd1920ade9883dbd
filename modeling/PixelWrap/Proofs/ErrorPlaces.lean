import PixelWrap.Proofs.Comments
import PixelWrap.Proofs.Intervals
import PixelWrap.Proofs.Matching

/-!
# The places of errors

An error of the preprocessor shows a file, a line and a column.  It may come up far inside: a
use of a macro fails in an argument of another one, or in its replacement text, and that in a
file that has been included.  What is shown is the place from which all of this was reached in
that file: the `#` of a directive, or the name of the macro whose use was being replaced.

The machine of a run stops at one item, and it is the item of a visit.  So an error belongs to a
directive or to a region of a file that has been loaded.  Within a region the scan takes steps up
to a name whose use fails.  What happens inside of this use does not matter for the place.

## Main definitions

* `Location.behind`: the line and the column right behind a text.
* `Preprocessed.Visit.IsDirectiveAt`: the item of a visit is a directive.
* `Preprocessed.Visit.MisusesAt`: the use of a macro in a region fails.
* `Preprocessed.Visit.Fails`: the run stops at a visit.

## Main results

* `SourceFile.location_append`: the location of an offset is the place behind the text in front
  of it.
* `Macro.exists_of_scan_error`: a scan that fails takes steps up to a name whose use fails.
* `Preprocessed.exists_failing_visit`: a run that fails stops at the end or at a visit.
* `Preprocessed.error_place`: **an error shows the directive, the name of the macro or the end of
  the main file that it belongs to.**
-/

namespace PixelWrap

open Text (size OuterWordAt WordAt)

/-! ### Lines and columns -/

/-- The text behind the last line feed. -/
def Text.lastLine (t : Text) : Text := t.rtakeWhile (· != '\n')

/-- The place right behind a text: lines are counted by the line feeds, and columns by the bytes
behind the last one. -/
def Location.behind (name : Option String) (t : Text) : Location :=
  { file := name, line := t.count '\n' + 1, column := size t.lastLine + 1 }

section Lines

variable {a b t : Text} {n : Nat}

theorem lineStarts_append (n : Nat) (a b : Text) :
    lineStarts n (a ++ b) = lineStarts n a ++ lineStarts (n + size a) b := by
  induction a generalizing n with
  | nil => rfl
  | cons c a ih =>
    rw [List.cons_append, lineStarts_cons_append, lineStarts_cons_append, ih, Text.size_cons,
      List.append_assoc, Nat.add_assoc]

/-- A line starts behind a line feed. -/
theorem mem_lineStarts (t : Text) : ∀ k ∈ lineStarts n t, n < k ∧ k ≤ n + size t := by
  induction t generalizing n with
  | nil => exact fun _ hk => absurd hk List.not_mem_nil
  | cons c t ih =>
    have hpos := c.utf8Size_pos
    intro k hk
    rw [lineStarts_cons_append, List.mem_append] at hk
    rw [Text.size_cons]
    rcases hk with hk | hk
    · split at hk
      · cases List.mem_singleton.mp hk
        omega
      · cases hk
    · have hle := ih k hk
      omega

theorem length_lineStarts (n : Nat) (t : Text) : (lineStarts n t).length = t.count '\n' := by
  induction t generalizing n with
  | nil => rfl
  | cons c t ih =>
    rw [lineStarts_cons_append, List.length_append, ih, List.count_cons]
    by_cases hc : c = '\n'
    · simp [hc, Nat.add_comm]
    · simp [hc]

/-- The lines that start up to the end of a text are those of the text. -/
theorem takeWhile_lineStarts (a b : Text) :
    (lineStarts 0 (a ++ b)).takeWhile (· ≤ size a) = lineStarts 0 a := by
  rw [lineStarts_append]
  have ha : ∀ k ∈ lineStarts 0 a, decide (k ≤ size a) = true := by
    intro k hk
    have hle := (mem_lineStarts a k hk).2
    exact decide_eq_true (by omega)
  rw [List.takeWhile_append_of_pos ha]
  have hb : (lineStarts (0 + size a) b).takeWhile (· ≤ size a) = [] := by
    cases hstarts : lineStarts (0 + size a) b with
    | nil => rfl
    | cons k ks =>
      have hlt := (mem_lineStarts b k (hstarts ▸ List.mem_cons_self ..)).1
      exact List.takeWhile_cons_of_neg (by simpa using by omega)
  rw [hb, List.append_nil]

/-- The last line starts behind the last line feed. -/
theorem getLastD_lineStarts (t : Text) :
    (lineStarts 0 t).getLastD 0 + size t.lastLine = size t := by
  induction t using List.reverseRecOn with
  | nil => rfl
  | append_singleton a c ih =>
    have hstarts : lineStarts (0 + size a) [c] =
        if c = '\n' then [0 + size a + c.utf8Size] else [] :=
      (lineStarts_cons_append ..).trans (List.append_nil _)
    rw [lineStarts_append, hstarts, Text.lastLine, List.rtakeWhile_concat, Text.size_append,
      Text.size_cons, Text.size_nil]
    by_cases hc : c = '\n'
    · rw [if_pos hc, if_neg (by simp [hc]), List.getLastD_concat, Text.size_nil]
      omega
    · rw [if_neg hc, if_pos (by simpa using hc), List.append_nil, Text.size_append, Text.size_cons,
        Text.size_nil, ← Nat.add_assoc]
      exact congrArg (· + (c.utf8Size + 0)) ih

end Lines

/-- **The location of an offset is the place behind the text in front of it.** -/
theorem SourceFile.location_append {f : SourceFile} {before after : Text}
    (h : f.text = before ++ after) :
    f.location (size before) = Location.behind f.name before := by
  have hlast := getLastD_lineStarts before
  have hsize := congrArg size h
  rw [Text.size_append] at hsize
  simp only [SourceFile.location, Location.behind, h, takeWhile_lineStarts, length_lineStarts]
  rw [wrapBeyond_of_le (by rw [Text.size_append]; omega)]
  congr 1
  omega

/-! ### Scans that fail -/

namespace Macro

variable {t : Table} {disabled : List String} {text : Text} {f : Failure}

/-- **A scan that fails takes steps up to a name whose use fails.** -/
theorem exists_of_scan_error (h : scan t disabled text = .error f) :
    ∃ qs w rest m, Steps t disabled text qs (w ++ rest) ∧ IsWord w rest ∧
      t.enabled? disabled w = some m ∧ (Task.invoke m rest).answer = .error f.error ∧
      f.rest = w ++ rest := by
  induction hn : text.length using Nat.strongRecOn generalizing text with
  | ind n ih =>
    subst hn
    have hne : text ≠ [] := by
      rintro rfl
      rw [scan] at h
      cases h
    obtain ⟨p, rest, hstep⟩ | ⟨w, rest, m, e, rfl, hw, he, ha⟩ :=
      exists_step_or_error t disabled hne
    · rw [hstep.scan_eq] at h
      have hrest : scan t disabled rest = .error f := by
        cases hr : scan t disabled rest with
        | ok ps =>
          rw [hr] at h
          cases h
        | error f' =>
          rw [hr] at h
          cases h
          rfl
      obtain ⟨qs, w, rest', m, hsteps, hfails⟩ := ih _ hstep.length_lt hrest rfl
      exact ⟨p :: qs, w, rest', m, .cons hstep hsteps, hfails⟩
    · rw [scan_eq_error hw he ha] at h
      cases h
      exact ⟨[], w, rest, m, .refl _, hw, he, ha, rfl⟩

/-- A use fails that has another number of arguments than its macro. -/
theorem answer_invoke_of_matchParams? {m : Enabled t disabled} {params : List String}
    {rest inner after : Text} {pieces : List Text} (hp : m.val.params = some params)
    (ho : openParen? rest = some inner) (hc : collect? 0 inner = some (pieces, after))
    (hm : matchParams? params.length m.val.variadic (pieces.map Text.trim) = none) :
    (Task.invoke m rest).answer = .error (.argumentCount m.val.name) := by
  have hcall : readCall m.val params rest = .error (.argumentCount m.val.name) := by
    unfold readCall
    split
    · next ho' => cases ho.symm.trans ho'
    · next ho' =>
      cases ho.symm.trans ho'
      split
      · next hc' => cases hc.symm.trans hc'
      · next hc' =>
        cases hc.symm.trans hc'
        split
        · rfl
        · next hm' => cases hm.symm.trans hm'
  show (invoke t disabled m rest).map _ = _
  rw [invoke_of_params_some rest hp, hcall]

end Macro

namespace Preprocessed

variable {load : String → Option Text} {name : Option String} {text : Text} {e : Entry}
  {s : State} {i : Item} {stop : Stop} {v : Visit}

/-! ### Items that fail -/

/-- The item of the visit is a directive, whose `#` stands at the offset of its file. -/
def Visit.IsDirectiveAt (v : Visit) (n : Nat) : Prop :=
  (∃ command, v.item = .directive n command) ∧
    ∃ before after, v.entry.file.text = before ++ '#' :: after ∧ size before = n

/-- The item of the visit is a region that is put out.  In it, a name stands at the offset of
the file, as a whole word and outside of literals.  It names a macro that is defined at that
moment, and its use fails for the reason, while those in front of it do not. -/
structure Visit.MisusesAt (v : Visit) (n : Nat) (reason : Reason) : Prop where
  active : v.state.groups.isActive = true
  exists_use : ∃ start qs w rest, ∃ m : Macro.Enabled v.state.macros [], ∃ error,
    v.item = .region start (Macro.sources qs ++ (w ++ rest)) ∧
      n = start + size (Macro.sources qs) ∧
      WordAt w n v.entry.file.text ∧
      OuterWordAt w (size (Macro.sources qs)) (Macro.sources qs ++ (w ++ rest)) ∧
      Macro.Steps v.state.macros [] (Macro.sources qs ++ (w ++ rest)) qs (w ++ rest) ∧
      v.state.macros.enabled? [] w = some m ∧
      (Macro.Task.invoke m rest).answer = .error error ∧ reason = .ofMacroError error

/-- The run stops at the visit: its item fails, and not in a file that it enters. -/
structure Visit.Fails (load : String → Option Text) (name : Option String) (text : Text)
    (v : Visit) (stop : Stop) : Prop where
  visited : Visited load name text v
  step_eq : step load (descend load v.depth) v.entry v.state v.item = .error stop
  depth_eq : ∀ entry, Loads load v.state v.item entry → v.depth = 0

/-- **A run that fails stops at the end of the main file or at a visit.**  No file is run in the
item of that visit, so that it does not matter which files there are. -/
theorem exists_failing_visit (h : runMain load name text = .error stop) :
    (∃ s, Machine.finish (mainEntry name text) s = .error stop) ∨
      ∃ v : Visit, v.Fails load name text stop ∧
        ∃ descend, step (fun _ => none) descend v.entry v.state v.item = .error stop := by
  obtain ⟨vs, hends, hvisited⟩ := Machine.ends_runMain load name text
  obtain ⟨us, m, hreaches, hend, rfl⟩ := hends.exists_reaches
  rw [h] at hend
  obtain ⟨-, hbelow, hr⟩ | ⟨i, is, stop', hitems, hl, hs, hr⟩ := Machine.cases_of_ends hend
  · have hmain : m.top.entry = mainEntry name text := by
      have hmain := hreaches.main_eq
      rwa [Machine.main, hbelow] at hmain
    rw [hmain] at hr
    exact .inl ⟨m.state, hr.symm⟩
  · cases hr
    have hle := (hreaches.wellFormed (Machine.wellFormed_start name text)).depth_le
    have hdepth : m.depth + (maxIncludeDepth - m.depth) = maxIncludeDepth := by omega
    refine .inr ⟨⟨maxIncludeDepth - m.depth, m.top.entry, m.state, i⟩, ⟨?_, ?_, ?_⟩, _, hs⟩
    · rw [← hvisited, Machine.visit?_cons hitems]
      exact List.mem_append_right us (List.mem_cons_self ..)
    · exact (Machine.step_of_loaded?_eq_none hl hdepth _).trans hs
    · intro entry hloads
      obtain ⟨offset, file, loaded, hrequested, hload, rfl⟩ := loads_iff.mp hloads
      by_contra hne
      have hlt : m.depth < maxIncludeDepth := Nat.lt_of_sub_ne_zero hne
      have hsome := Machine.loaded?_eq_some.mpr ⟨hlt, file, loaded, hrequested, hload, rfl⟩
      rw [hl] at hsome
      cases hsome

/-- A directive in which no file is entered fails at its own place. -/
theorem exists_reason_of_step {descend : Descend} {offset : Nat} {command : Command}
    (h : step (fun _ => none) descend e s (.directive offset command) = .error stop) :
    ∃ reason, stop.error = ⟨reason, e.file.location offset⟩ := by
  have hfail : ∀ {s : State} {reason : Reason}, s.fail e offset reason = .error stop →
      ∃ reason, stop.error = ⟨reason, e.file.location offset⟩ := by
    rintro s reason ⟨⟩
    exact ⟨reason, rfl⟩
  rw [step] at h
  split at h
  · exact hfail h
  · next gs _ =>
    split at h
    · cases hd : Directive.ofCommand command with
      | includeFile operands =>
        rw [hd, perform, includeFile] at h
        split at h
        · exact hfail h
        · cases descend with
          | none => exact hfail h
          | some _ => cases h
      | define operands =>
        rw [hd, perform, defineMacro] at h
        split at h
        · exact hfail h
        · cases h
      | undefine name =>
        rw [hd, perform] at h
        split at h
        · cases h
        · exact hfail h
      | unknown name =>
        rw [hd] at h
        exact hfail h
      | _ =>
        rw [hd] at h
        cases h
    · cases h

/-- An open group is no reason for an item to fail. -/
theorem reason_ne_of_step {descend : Descend}
    (h : step (fun _ => none) descend e s i = .error stop) :
    stop.error.reason ≠ .groupNotClosed := by
  by_cases hstep : ∃ gs', GroupStep i.role s.groups gs'
  · obtain ⟨gs', hstep⟩ := hstep
    intro hreason
    exact not_groupStep_of_step h (by rw [hreason]; rfl) hstep
  · obtain ⟨reason, hreason, hstop⟩ := unmatched_of_step h (not_exists.mp hstep)
    cases hstop
    exact (isUnmatched_of_unmatched? hreason).2

/-! ### Places in a file -/

/-- The `#` of a directive stands in the file as it was loaded. -/
theorem exists_of_directive_mem {file : SourceFile} {offset : Nat} {command : Command}
    (h : .directive offset command ∈ Item.ofText file.code) :
    ∃ before after, file.text = before ++ '#' :: after ∧ size before = offset := by
  have hstands : Text.StandsAt ['#'] offset file.code := Item.standsIn_of_mem_ofText h
  have hcode := hstands.getElem?_bytes (d := 0) Nat.one_pos
  have htext := Comment.getElem?_bytes_of_blank (b := 35) hcode (by decide)
  exact Text.exists_of_getElem?_bytes (c := '#') rfl htext

/-- A region in which the scan fails does so at the name of a macro. -/
theorem exists_misuse_of_storeRegion {offset : Nat} {region : Text}
    (hitem : v.item = .region offset region) (hmem : v.item ∈ Item.ofText v.entry.file.code)
    (ha : v.state.groups.isActive = true)
    (h : storeRegion v.entry offset region v.state = .error stop) :
    ∃ n, v.MisusesAt n stop.error.reason ∧
      stop.error.location = v.entry.file.location n := by
  unfold storeRegion at h
  split at h
  · cases h
  · next f hf =>
    obtain ⟨qs, w, rest, m, hsteps, hw, he, hanswer, hrest⟩ := Macro.exists_of_scan_error hf
    have hregion := hsteps.sources_append
    have houter : OuterWordAt w (size (Macro.sources qs)) region := by
      obtain ⟨hname, -⟩ := Macro.isDefined_of_enabled? (Option.isSome_of_eq_some he)
      exact hsteps.outerWordAt ((Text.outerWordAt_word hw).mpr (.inl ⟨rfl, rfl, hname⟩))
    have hoffset : size region - size f.rest = size (Macro.sources qs) := by
      rw [hrest, ← hregion, Text.size_append, Nat.add_sub_cancel]
    rw [hitem] at hmem
    have hword := Comment.wordAt_of_blank (Item.wordAt_of_region hmem houter.1)
    rw [hoffset] at h
    cases h
    subst hregion
    exact ⟨_, ⟨ha, offset, qs, w, rest, m, _, hitem, rfl, hword, houter, hsteps, he, hanswer, rfl⟩,
      rfl⟩

/-- **The item of a visit fails at a directive or at the name of a macro.** -/
theorem Visit.Fails.exists_place (h : v.Fails load name text stop) {descend : Descend}
    (hstep : step (fun _ => none) descend v.entry v.state v.item = .error stop) :
    ∃ n, (v.IsDirectiveAt n ∨ v.MisusesAt n stop.error.reason) ∧
      stop.error.location = v.entry.file.location n := by
  have hmem := h.visited.wellPlaced.mem
  cases hitem : v.item with
  | directive offset command =>
    rw [hitem] at hstep hmem
    obtain ⟨reason, herror⟩ := exists_reason_of_step hstep
    refine ⟨offset, .inl ⟨⟨command, hitem⟩, exists_of_directive_mem hmem⟩, ?_⟩
    rw [herror]
  | region offset region =>
    rw [hitem, step] at hstep
    split at hstep
    · next ha =>
      obtain ⟨n, hmisuse, hlocation⟩ := exists_misuse_of_storeRegion hitem hmem ha hstep
      exact ⟨n, .inr hmisuse, hlocation⟩
    · cases hstep

theorem exists_stop_of_run {e : Error} (h : (run load name text).result = .error e) :
    ∃ stop, runMain load name text = .error stop ∧ stop.error = e := by
  unfold run at h
  split at h
  · cases h
  · next stop hstop =>
    cases h
    exact ⟨stop, hstop, rfl⟩

/-- **An error shows the place that it belongs to.**  A group that is still open is shown at the
end of the main file.  Any other error is shown in a file that has been loaded, at the `#` of the
directive that fails, or, in a region, at the name of a macro whose use fails, however deep in the
use that may be. -/
theorem error_place {e : Error} (h : (run load name text).result = .error e) :
    (e.reason = .groupNotClosed ∧ e.location = Location.behind name text) ∨
      (e.reason ≠ .groupNotClosed ∧ ∃ v : Visit, ∃ stop before after,
        v.Fails load name text stop ∧ stop.error = e ∧
        v.state.files[v.entry.index]? = some v.entry.file ∧
        v.entry.file.text = before ++ after ∧
        e.location = Location.behind v.entry.file.name before ∧
        (v.IsDirectiveAt (size before) ∨ v.MisusesAt (size before) e.reason)) := by
  obtain ⟨stop, hrun, rfl⟩ := exists_stop_of_run h
  obtain ⟨s, hfinish⟩ | ⟨v, hfails, descend, hstep⟩ := exists_failing_visit hrun
  · refine .inl ⟨reason_of_finish hfinish, ?_⟩
    rw [Machine.finish] at hfinish
    split at hfinish
    · cases hfinish
    · cases hfinish
      exact SourceFile.location_append (List.append_nil text).symm
  · obtain ⟨n, hplace, hlocation⟩ := hfails.exists_place hstep
    -- In both cases a front of the file ends at the offset.
    obtain ⟨before, after, htext, rfl⟩ :
        ∃ before after, v.entry.file.text = before ++ after ∧ size before = n := by
      rcases hplace with ⟨-, before, after, htext, hsize⟩ | hmisuse
      · exact ⟨before, _, htext, hsize⟩
      · obtain ⟨-, -, w, -, -, -, -, -, ⟨before, after, htext, hsize, -⟩, -⟩ := hmisuse.exists_use
        exact ⟨before, w ++ after, by rw [htext, List.append_assoc], hsize⟩
    refine .inr ⟨reason_ne_of_step hstep, v, stop, before, after, hfails, rfl,
      hfails.visited.wellPlaced.registered, htext, ?_, hplace⟩
    rw [hlocation, SourceFile.location_append htext]

/-- A macro that stands for its argument. -/
def echoMacro : Macro := ⟨"F", some ["a"], false, [.arg 0]⟩

/-- The use in the argument has an argument too many, and the scan stops at the outer name. -/
theorem scan_echoMacro : Macro.scan ⟨[echoMacro]⟩ [] "é F(F(1,2))".toList =
    .error ⟨.argumentCount "F", "F(F(1,2))".toList⟩ := by
  let m : Macro.Enabled ⟨[echoMacro]⟩ [] := ⟨echoMacro, by decide, by decide⟩
  have hword {r : Text} (hr : r.head? = some '(') : Macro.IsWord ['F'] r :=
    Macro.isWord_singleton (by decide) (by rw [hr]; rintro c ⟨⟩; decide)
  have hcollect : Macro.collect? 0 "1,2)".toList = some ([['1'], ['2']], []) := by cbv
  have hinner : (Macro.Task.invoke m "(1,2)".toList).answer = .error (.argumentCount "F") :=
    Macro.answer_invoke_of_matchParams? rfl rfl hcollect rfl
  have hargument : Macro.Table.expandUnder ⟨[echoMacro]⟩ [] "F(1,2)".toList =
      .error (.argumentCount "F") := by
    have hscan := Macro.scan_eq_error (hword rfl) (by cbv) hinner
    rw [Macro.Table.expandUnder]
    show (Except.map _ (Macro.scan _ [] (['F'] ++ "(1,2)".toList))).mapError _ = _
    rw [hscan]
    rfl
  have houter : (Macro.Task.invoke m "(F(1,2))".toList).answer = .error (.argumentCount "F") := by
    have hopen : Macro.openParen? "(F(1,2))".toList = some ("F(1,2)".toList ++ [')']) := rfl
    show (Macro.invoke _ [] m _).map _ = _
    rw [Macro.invoke_of_isArgument rfl rfl hopen (by decide)]
    show (Macro.Table.expandUnder _ [] "F(1,2)".toList).bind _ = _
    rw [hargument]
    rfl
  have hfirst : Macro.Step ⟨[echoMacro]⟩ [] "é F(F(1,2))".toList (.kept ['é'])
      " F(F(1,2))".toList := .mark _ (by decide) (by decide)
  have hsecond : Macro.Step ⟨[echoMacro]⟩ [] " F(F(1,2))".toList (.kept [' '])
      "F(F(1,2))".toList := .mark _ (by decide) (by decide)
  have hscan := Macro.scan_eq_error (hword rfl) (by cbv) houter
  rw [hfirst.scan_eq, hsecond.scan_eq]
  show Except.map _ (Except.map _ (Macro.scan _ [] (['F'] ++ "(F(1,2))".toList))) = _
  rw [hscan]
  rfl

/-- A main file that defines a macro and includes a file. -/
def echoText : Text := "#define F(a) a\n#include <f>\n".toList

/-- The included file uses the macro in its own argument, and there with two arguments. -/
theorem run_echoText : (run (fun _ => some "é F(F(1,2))".toList) none echoText).result =
    .error ⟨.macroArgumentCount "F", ⟨some "f", 1, 4⟩⟩ := by
  let entry : Entry := mainEntry none echoText
  let included : Entry := ⟨1, ⟨some "f", "é F(F(1,2))".toList⟩⟩
  let s : State := { files := [entry.file], macros := ⟨[echoMacro]⟩ }
  let stop : Stop := ⟨⟨.macroArgumentCount "F", ⟨some "f", 1, 4⟩⟩, []⟩
  have hmain : Item.ofText (Comment.blank echoText) =
      [.directive 0 ⟨"define F(a) a".toList⟩, .directive 15 ⟨"include <f>".toList⟩] := by cbv
  have hdefine (load : String → Option Text) (descend : Descend) :
      step load descend entry (startState none echoText) (.directive 0 ⟨"define F(a) a".toList⟩) =
        .ok s := by cbv
  have hincluded : Item.ofText (Comment.blank "é F(F(1,2))".toList) =
      [.region 0 "é F(F(1,2))".toList] := by cbv
  have hregion (load : String → Option Text) (descend : Descend) :
      step load descend included (s.enter included) (.region 0 "é F(F(1,2))".toList) =
        .error stop := by
    show storeRegion included 0 "é F(F(1,2))".toList (s.enter included) = _
    have hscan : (s.enter included).macros.substitute "é F(F(1,2))".toList = _ := scan_echoMacro
    rw [storeRegion, hscan]
    cbv
  have hinclude (runEntry : Entry → State → Except Stop State)
      (hfails : runEntry included (s.enter included) = .error stop) :
      step (fun _ => some "é F(F(1,2))".toList) (some runEntry) entry s
        (.directive 15 ⟨"include <f>".toList⟩) = .error stop := by
    have hrequested : requested? s (.directive 15 ⟨"include <f>".toList⟩) = some (15, "f") := by cbv
    obtain ⟨operands, hname, hstep⟩ := step_of_requested? hrequested
    rw [hstep, includeFile, hname]
    show runEntry included (s.enter included) >>= _ = _
    rw [hfails]
    rfl
  have hrun : runMain (fun _ => some "é F(F(1,2))".toList) none echoText = .error stop := by
    rw [runMain_eq, SourceFile.code]
    show (runItems _ _ _ _ (Item.ofText (Comment.blank echoText)) >>= _) = _
    rw [hmain, runItems_cons, hdefine, ok_bind, runItems_cons]
    show ((step _ (some (runFile _ 63)) _ _ _ >>= _) >>= _) = _
    rw [hinclude]
    · rfl
    · rw [runFile_eq, SourceFile.code, hincluded, runItems_cons, hregion]
      rfl
  rw [run, hrun]

/-- The error of the inner use is shown at the name of the outer one, in the included file. -/
theorem error_place_echoText :
    (run (fun _ => some "é F(F(1,2))".toList) none echoText).result =
        .error ⟨.macroArgumentCount "F", ⟨some "f", 1, 4⟩⟩ ∧
      ∃ v : Visit, ∃ before, v.entry.file.name = some "f" ∧
        Location.behind v.entry.file.name before = ⟨some "f", 1, 4⟩ ∧
        before <+: v.entry.file.text ∧
        (v.IsDirectiveAt (size before) ∨
          v.MisusesAt (size before) (.macroArgumentCount "F")) := by
  refine ⟨run_echoText, ?_⟩
  obtain ⟨hreason, -⟩ | ⟨-, v, stop, before, after, -, -, -, htext, hlocation, hplace⟩ :=
    error_place run_echoText
  · cases hreason
  · exact ⟨v, before, (congrArg Location.file hlocation).symm, hlocation.symm, ⟨after, htext.symm⟩,
      hplace⟩

end Preprocessed

end PixelWrap
