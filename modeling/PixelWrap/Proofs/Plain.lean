import Mathlib.Tactic.Common
import PixelWrap.Proofs.Inclusion
import PixelWrap.Proofs.SourceMap

/-!
# Text without directives

A text without directives is put out as it is, apart from its comments, and a stretch of
the output is shown as it was written.  The same holds for what follows an `#include` of a
file that cannot be loaded.

## Main definitions

* `quiet`: no line of a text holds a directive, told from character to character.
* `Preprocessed.Shows`: the output shows a text as it is written.

## Main results

* `quiet_iff`: the two ways to say that there are no directives agree.
* `Preprocessed.exists_shows_of_plain`: a text without directives is shown.
* `Preprocessed.exists_shows_of_include_none`: so is what follows an `#include` of nothing.
-/

namespace PixelWrap

open Comment (blank)

/-! ### Slices -/

namespace Text

theorem dropBytes?_append (a b : Text) : dropBytes? (size a) (a ++ b) = some b := by
  induction a with
  | nil => cases b <;> rfl
  | cons c a ih =>
    have hpos := c.utf8Size_pos
    rw [size_cons, List.cons_append, dropBytes?, if_neg (by omega), if_pos (by omega),
      Nat.add_sub_cancel_left, ih]

theorem takeBytes?_append (a b : Text) : takeBytes? (size a) (a ++ b) = some a := by
  induction a with
  | nil => cases b <;> rfl
  | cons c a ih =>
    have hpos := c.utf8Size_pos
    rw [size_cons, List.cons_append, takeBytes?, if_neg (by omega), if_pos (by omega),
      Nat.add_sub_cancel_left, ih]
    rfl

theorem slice?_append (a b c : Text) :
    slice? (size a) (size a + size b) (a ++ (b ++ c)) = some b := by
  rw [slice?, if_pos (Nat.le_add_right _ _), dropBytes?_append, Nat.add_sub_cancel_left]
  exact takeBytes?_append b c

end Text

/-! ### Lines without directives -/

/-- No line of the text holds a directive; the flag tells whether only white space stands
in front of the text on its first line. -/
def quiet : Bool → Text → Bool
  | _, [] => true
  | start, c :: r =>
    if c == '\n' then quiet true r
    else if start && c == '#' then false
    else quiet (start && isSpace c) r

theorem isDirectiveLine_cons (c : Char) (l : Text) :
    isDirectiveLine (c :: l) = if isSpace c then isDirectiveLine l else c == '#' := by
  rw [isDirectiveLine, Text.trimStart, List.dropWhile_cons]
  split
  · rfl
  · rfl

theorem quiet_eq (start : Bool) (t : Text) :
    quiet start t = ((Text.lines t).head?.all (fun l => !(start && isDirectiveLine l)) &&
      (Text.lines t).tail.all (!isDirectiveLine ·)) := by
  induction t generalizing start with
  | nil => rfl
  | cons c r ih =>
    rw [quiet, Text.lines]
    split
    · next hc =>
      cases eq_of_beq hc
      rw [ih true]
      cases Text.lines r with
      | nil => cases start <;> rfl
      | cons l ls => cases start <;> simp [isSpace, isDirectiveLine, Text.trimStart]
    · next hc =>
      have hnil : isDirectiveLine [] = false := rfl
      have hhash : isSpace '#' = false := by decide
      rw [ih]
      by_cases hh : c = '#'
      · subst hh
        cases start <;> cases Text.lines r <;> simp [isDirectiveLine_cons, hhash]
      · cases start <;> cases Text.lines r <;> by_cases hs : isSpace c = true <;>
          simp [isDirectiveLine_cons, hh, hs, hnil]

/-- **The two ways to say that there are no directives agree.** -/
theorem quiet_iff {t : Text} :
    quiet true t = true ↔ ∀ l ∈ Text.lines t, isDirectiveLine l = false := by
  rw [quiet_eq]
  cases Text.lines t with
  | nil => simp
  | cons l ls => simp

section Quiet

variable {start : Bool} {s t : Text}

theorem quiet_of_true (h : quiet true t = true) : quiet start t = true := by
  cases start with
  | true => exact h
  | false =>
    rw [quiet_eq, Bool.and_eq_true] at h ⊢
    exact ⟨by cases (Text.lines t).head? <;> rfl, h.2⟩

theorem quiet_append (hs : quiet start s = true) (ht : quiet true t = true) :
    quiet start (s ++ t) = true := by
  induction s generalizing start with
  | nil => exact quiet_of_true ht
  | cons c s ih =>
    rw [quiet] at hs
    rw [List.cons_append, quiet]
    split at hs
    · next hc => rw [if_pos hc, ih hs]
    · next hc =>
      split at hs
      · cases hs
      · next hh => rw [if_neg hc, if_neg hh, ih hs]

theorem quiet_of_append (h : quiet start (s ++ t) = true) :
    quiet start s = true ∧ ∃ start', quiet start' t = true := by
  induction s generalizing start with
  | nil => exact ⟨rfl, start, h⟩
  | cons c s ih =>
    rw [List.cons_append, quiet] at h
    rw [quiet]
    split at h
    · next hc =>
      rw [if_pos hc]
      exact ih h
    · next hc =>
      split at h
      · cases h
      · next hh =>
        rw [if_neg hc, if_neg hh]
        exact ih h

theorem quiet_of_not_mem (h : '#' ∉ t) : quiet start t = true := by
  induction t generalizing start with
  | nil => rfl
  | cons c t ih =>
    have hc : (c == '#') = false := by
      rw [beq_eq_false_iff_ne]
      exact fun hc => h (hc ▸ List.mem_cons_self ..)
    rw [quiet, hc, Bool.and_false, ih fun hm => h (List.mem_cons_of_mem _ hm),
      ih fun hm => h (List.mem_cons_of_mem _ hm)]
    simp

/-- Where a line cannot start with a directive, it does not matter what stands in front. -/
theorem quiet_cons {c : Char} (hs : isSpace c = false) (hc : c ≠ '#')
    (h : quiet start (c :: t) = true) : quiet true (c :: t) = true := by
  have hh : (c == '#') = false := beq_eq_false_iff_ne.mpr hc
  rw [quiet] at h ⊢
  simpa [hs, hh] using h

end Quiet

/-! ### Text without macros -/

namespace Macro

/-- The text as one piece, or as none if it is empty. -/
def keptPieces (text : Text) : List Piece := if text.isEmpty then [] else [.kept text]

theorem keep_keptPieces {s : Text} (hs : s ≠ []) (r : Text) :
    keep s (keptPieces r) = keptPieces (s ++ r) := by
  obtain ⟨c, s, rfl⟩ := List.exists_cons_of_ne_nil hs
  cases r with
  | nil => simp [keptPieces, keep]
  | cons d r => rfl

/-- **Without macros all text is kept.** -/
theorem scan_empty (disabled : List String) (text : Text) :
    scan {} disabled text = .ok (keptPieces text) := by
  have henabled : ∀ word, ({} : Table).enabled? disabled word = none := fun word => rfl
  induction hn : text.length using Nat.strongRecOn generalizing text with
  | ind n ih =>
    subst hn
    cases text with
    | nil =>
      rw [scan]
      rfl
    | cons c r =>
      have hrest : ∀ {s r' : Text}, s ≠ [] → s ++ r' = c :: r →
          (scan {} disabled r').map (keep s) = .ok (keptPieces (c :: r)) := by
        intro s r' hs happend
        have hlt : r'.length < (c :: r).length := by
          have := List.length_pos_iff.mpr hs
          rw [← happend, List.length_append]
          omega
        rw [ih _ hlt r' rfl, ← happend, ← keep_keptPieces hs]
        rfl
      rw [scan]
      split
      · exact hrest (List.cons_ne_nil _ _) (congrArg (c :: ·) (Quoted.split_append r))
      · split
        · rw [henabled]
          exact hrest (List.cons_ne_nil _ _) (congrArg (c :: ·) List.takeWhile_append_dropWhile)
        · exact hrest (List.cons_ne_nil _ _) rfl

end Macro

namespace Preprocessed

variable {e : Entry} {s : State} {load : String → Option Text} {depth : Nat}

theorem storeRegion_of_empty (hs : s.macros = {}) (offset : Nat) (text : Text) :
    storeRegion e offset text s = .ok (s.emit [⟨text, .copied e.index offset⟩]) := by
  rw [storeRegion, hs, Macro.Table.substitute, Macro.scan_empty]
  cases text with
  | nil => rfl
  | cons c text => rfl

/-! ### Runs of text without directives -/

theorem ofLines_of_plain {ls : List Text} (h : ∀ l ∈ ls, isDirectiveLine l = false) (offset : Nat) :
    Item.ofLines offset ls = if ls.isEmpty then [] else [.region offset ls.flatten] := by
  cases ls with
  | nil => rw [Item.ofLines]; rfl
  | cons l ls =>
    have hall : ls.takeWhile (!isDirectiveLine ·) = ls := by
      refine List.takeWhile_eq_self_iff.mpr fun m hm => ?_
      rw [h m (List.mem_cons_of_mem _ hm)]
      rfl
    rw [Item.ofLines, h l (List.mem_cons_self ..)]
    simp [hall, Item.ofLines]

/-- Text without directives is put out as a whole if there are no macros and no groups. -/
theorem runItems_of_plain {t : Text} (h : ∀ l ∈ codeLines t, isDirectiveLine l = false)
    (hmacros : s.macros = {}) (hgroups : s.groups = []) (offset : Nat) :
    runItems load depth e s (Item.ofLines offset (codeLines t)) =
      .ok (s.emit [⟨blank t, .copied e.index offset⟩]) := by
  have hflatten : (codeLines t).flatten = blank t := Text.flatten_lines _
  rw [ofLines_of_plain h]
  split
  · next hnil =>
    have hempty : blank t = [] := by
      rw [← hflatten, List.isEmpty_iff.mp hnil]
      rfl
    rw [hempty]
    rfl
  · rw [runItems_cons, step, hgroups, hflatten, storeRegion_of_empty hmacros]
    rfl

/-- **Text without directives is put out as it is.** -/
theorem run_of_plain (load : String → Option Text) (name : Option String) {text : Text}
    (h : ∀ l ∈ codeLines text, isDirectiveLine l = false) :
    (run load name text).result =
      .ok ⟨Output.push {} ⟨blank text, .copied 0 0⟩, [⟨name, text⟩]⟩ := by
  have hrun : runMain load name text =
      .ok ((startState name text).emit [⟨blank text, .copied 0 0⟩]) := by
    rw [runMain_eq]
    change runItems _ _ _ _ (Item.ofLines 0 (codeLines text)) >>= _ = _
    rw [runItems_of_plain h rfl rfl]
    rfl
  rw [run, hrun]
  rfl

theorem step_include_of_none {f : Text} (hq : '"' ∉ f) (hn : '\n' ∉ f)
    (ha : s.groups.isActive = true) (offset : Nat) :
    ∃ message, step (fun _ => none) (descend (fun _ => none) maxIncludeDepth) e s
        (.directive offset (.ofLines [includeLine f])) =
      .ok (s.notify .warn e offset message) := by
  have hdescend : descend (fun _ => none) maxIncludeDepth =
      some (runFile (fun _ => none) (maxIncludeDepth - 1)) := rfl
  refine ⟨"could not find include file \"" ++ String.ofList f ++ "\", continuing without it", ?_⟩
  rw [step, (isLine_includeLine hq hn).directive, regroup_of_plain rfl, hdescend]
  simp only [ha, if_true, perform, includeFile, includeName?_quoted hq]

theorem runItems_of_include_none {front f back : Text} (hq : '"' ∉ f) (hn : '\n' ∉ f)
    (hfront : Complete front) (hplain : ∀ l ∈ codeLines front, isDirectiveLine l = false)
    (hback : ∀ l ∈ codeLines back, isDirectiveLine l = false) (hmacros : s.macros = {})
    (hgroups : s.groups = []) :
    ∃ offset message, runItems (fun _ => none) maxIncludeDepth e s
        (Item.ofLines 0 (codeLines (including f front back))) =
      .ok (((s.emit [⟨blank front, .copied e.index 0⟩]).notify .warn e offset message).emit
        [⟨blank back, .copied e.index (Text.size (front ++ includeLine f))⟩]) := by
  have hsize : offsetAfter 0 front (includeLine f) = Text.size (front ++ includeLine f) := by
    have hflatten : (codeLines front).flatten = blank front := Text.flatten_lines _
    rw [offsetAfter, hflatten, blank, Comment.size_blankFrom, Text.size_append, Nat.zero_add]
  have ha : (s.emit [⟨blank front, .copied e.index 0⟩]).groups.isActive = true := by
    change Groups.isActive s.groups = true
    rw [hgroups]
    rfl
  obtain ⟨message, hstep⟩ := step_include_of_none (e := e) hq hn ha
    (offsetAfter 0 front ((includeLine f).takeWhile isSpace))
  refine ⟨offsetAfter 0 front ((includeLine f).takeWhile isSpace), message, ?_⟩
  rw [including, runItems_split _ _ _ _ hfront (isLine_includeLine hq hn),
    runItems_of_plain hplain hmacros hgroups, ok_bind, hstep, ok_bind, hsize]
  refine runItems_of_plain hback ?_ ?_ _
  · exact hmacros
  · exact hgroups

/-- **An `#include` of a file that cannot be loaded leaves no trace in the output.** -/
theorem run_of_include_none (name : Option String) {front f back : Text} (hq : '"' ∉ f)
    (hn : '\n' ∉ f) (hfront : Complete front)
    (hplain : ∀ l ∈ codeLines front, isDirectiveLine l = false)
    (hback : ∀ l ∈ codeLines back, isDirectiveLine l = false) :
    (run (fun _ => none) name (including f front back)).result =
      .ok ⟨(Output.push {} ⟨blank front, .copied 0 0⟩).push
          ⟨blank back, .copied 0 (Text.size (front ++ includeLine f))⟩,
        [⟨name, including f front back⟩]⟩ := by
  obtain ⟨offset, message, hitems⟩ := runItems_of_include_none
    (e := mainEntry name (including f front back)) (s := startState name (including f front back))
    hq hn hfront hplain hback rfl rfl
  have hrun := runMain_eq (fun _ => none) name (including f front back)
  change runMain _ _ _ =
    runItems _ _ _ _ (Item.ofLines 0 (codeLines (including f front back))) >>= _ at hrun
  rw [run, hrun, hitems]
  rfl

/-! ### Text as it is shown -/

/-- The output is the text `lead ++ tail` with its comments overwritten, and each stretch of
`tail` is shown as it is written. -/
structure Shows (p : Preprocessed) (lead tail : Text) : Prop where
  code : p.code = blank (lead ++ tail)
  sourceText : ∀ a b c, tail = a ++ (b ++ c) → b ≠ [] →
    p.sourceText ⟨Text.size (lead ++ a), Text.size (lead ++ a) + Text.size b⟩ = b

/-- What is copied from the end of a file is shown as it is written. -/
theorem shows_push (before : Text) {o : Output} (ho : o.WellFormed) {name : Option String}
    {lead tail : Text} (hcode : o.code = blank lead)
    (hblank : blank (lead ++ tail) = blank lead ++ blank tail) :
    Shows ⟨o.push ⟨blank tail, .copied 0 (Text.size before)⟩, [⟨name, before ++ tail⟩]⟩ lead
      tail := by
  have hsize : ∀ t, Text.size (blank t) = Text.size t := Comment.size_blankFrom _
  refine ⟨by rw [Output.code_push, hcode, hblank], fun a b c htail hb => ?_⟩
  have hpos := Text.size_pos hb
  have htailSize : Text.size tail = Text.size a + (Text.size b + Text.size c) := by
    rw [htail, Text.size_append, Text.size_append]
  have hplace : ∀ d, d < Text.size tail →
      (o.push ⟨blank tail, .copied 0 (Text.size before)⟩).place? (Text.size lead + d) =
        some ⟨0, Text.size before + d, true⟩ := by
    intro d hd
    have hle : Text.size o.code ≤ Text.size lead + d := by
      rw [hcode, hsize]
      omega
    have hlt : Text.size lead + d <
        Text.size (o.push ⟨blank tail, .copied 0 (Text.size before)⟩).code := by
      rw [Output.code_push, hcode, Text.size_append, hsize, hsize]
      omega
    rw [Output.place?_push_of_le ho hle hlt, hcode, hsize, Nat.add_sub_cancel_left]
    rfl
  have hfirst := hplace (Text.size a) (by omega)
  have hlast := hplace (Text.size a + Text.size b - 1) (by omega)
  have hwritten : writtenText?
      ⟨o.push ⟨blank tail, .copied 0 (Text.size before)⟩, [⟨name, before ++ tail⟩]⟩
      ⟨Text.size (lead ++ a), Text.size (lead ++ a) + Text.size b⟩ = some b := by
    have hstop : Text.size lead + Text.size a + Text.size b - 1 =
        Text.size lead + (Text.size a + Text.size b - 1) := by omega
    have hend : Text.size before + (Text.size a + Text.size b - 1) + 1 =
        Text.size (before ++ a) + Text.size b := by
      rw [Text.size_append]
      omega
    have hle : Text.size (before ++ a) + Text.size b ≤ Text.size (before ++ tail) := by
      rw [Text.size_append, Text.size_append]
      omega
    have hslice := Text.slice?_append (before ++ a) b c
    rw [List.append_assoc, ← htail] at hslice
    have hordered : Text.size before + Text.size a ≤
        Text.size before + (Text.size a + Text.size b - 1) := by omega
    simp only [writtenText?, Text.size_append, hstop, hfirst, hlast]
    rw [if_neg (by omega)]
    simp only [Option.bind_eq_bind, Option.bind_some, List.getElem?_cons_zero, Bool.and_true,
      beq_self_eq_true, hordered, decide_true, if_true]
    rw [hend, ← Text.size_append, wrapBeyond_of_le hle, hslice]
  rw [sourceText, hwritten]
  rfl

/-- A text without directives is shown. -/
theorem exists_shows_of_plain (load : String → Option Text) (name : Option String) {text : Text}
    (h : ∀ l ∈ codeLines text, isDirectiveLine l = false) :
    ∃ p, (run load name text).result = .ok p ∧ Shows p [] text :=
  ⟨_, run_of_plain load name h, shows_push [] .empty rfl rfl⟩

/-- **What follows an `#include` of nothing is shown.** -/
theorem exists_shows_of_include_none (name : Option String) {front f back : Text} (hq : '"' ∉ f)
    (hn : '\n' ∉ f) (hfront : Complete front)
    (hplain : ∀ l ∈ codeLines front, isDirectiveLine l = false)
    (hback : ∀ l ∈ codeLines back, isDirectiveLine l = false) :
    ∃ p, (run (fun _ => none) name (including f front back)).result = .ok p ∧
      Shows p front back := by
  have hblank : blank (front ++ back) = blank front ++ blank back := by
    rw [blank, Comment.blankFrom_append .code hfront.ended.clean, hfront.mode]
    rfl
  have hincluding : including f front back = (front ++ includeLine f) ++ back :=
    (List.append_assoc ..).symm
  refine ⟨_, run_of_include_none name hq hn hfront hplain hback, ?_⟩
  rw [hincluding]
  exact shows_push _ (Output.WellFormed.empty.push _) Output.code_push hblank

end Preprocessed

end PixelWrap
