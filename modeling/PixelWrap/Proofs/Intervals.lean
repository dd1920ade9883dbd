import PixelWrap.Proofs.ArgumentLists
import PixelWrap.Proofs.SourceMap

/-!
# The intervals that the pieces of a text take up

The pieces of a text do not say where they stand.  The offsets that a location is made from
come from adding up what the pieces were before macros were replaced, and so they are only as
good as the pieces: each of them has to be there as a whole, and none may be left out.

A use may be as long as the replacement that it is read on with, because each name that the
replacement ends in takes further arguments from the text.  What holds of a single list of
arguments and goes on from one to the next holds of a use as a whole.  In this way a use does
not end in a literal, and behind it words stand where they stand in the text.

## Main definitions

* `Macro.Passed`: reading goes on outside of literals, and not in the middle of a name.
* `Span.Tile`: spans stand one behind the other, and none is empty.
* `Macro.spansOf`: the spans that pieces take up.
* `Macro.Piece.CutAt`: a piece is what stands in a text at a span.

## Main results

* `Macro.relation_of_resume`, `Macro.Used.relation`: what holds of the arguments of a use and is
  kept by reading on holds of the use.
* `Macro.Step.outerWordAt`: words stand behind a step where they stand in the text.
* `Macro.exists_name_of_replaced`: a use starts with the name of a macro.
* `Macro.substitute_tiles`: **the pieces of a text are cut from spans that tile it.**
-/

namespace PixelWrap

open Text (size OuterWordAt)

namespace Quoted

variable {s v : Text}

theorem apart_of_ne (h : ∀ c ∈ s, c ≠ '"') : Apart s v := by
  induction s with
  | nil => exact .nil v
  | cons c s ih =>
    obtain ⟨hc, hs⟩ := List.forall_mem_cons.mp h
    exact .mark hc (ih hs)

end Quoted

open Quoted (Apart)

/-- A word behind a text stands there as well, if that ends neither in a literal nor in a name
that goes on. -/
theorem Text.OuterWordAt.append {w s t : Text} {n : Nat} (h : OuterWordAt w n t) (hs : Apart s t)
    (hname : Macro.startsInName t = true → Macro.endsInName s = false) :
    OuterWordAt w (size s + n) (s ++ t) :=
  ⟨h.1.append hname, by rw [hs.inside_append, h.2]⟩

namespace Macro

variable {t : Table} {disabled : List String}

/-! ### What a use takes up -/

section Relation

variable {R : Text → Text → Prop} (refl : ∀ a, R a a) (trans : ∀ {a b c}, R a b → R b c → R a c)
  (reads : ∀ {m rest args after}, ReadsArgs m rest args after → R rest after)
include refl trans reads

/-- **What holds of arguments and is kept by reading on holds of what is resumed.** -/
theorem relation_of_resume {origin : String} {output rest out after : Text}
    (h : (Task.resume origin output rest : Task t disabled).answer = .ok (out, after)) :
    R rest after := by
  refine resume_induction (P := fun _ _ rest x => R rest x.2) (fun _ => refl _) ?_ h
  intro origin output rest tail middle x m _ hm _ hused hinner hbehind
  obtain ⟨hargs, -, -, hresume⟩ := hused
  exact trans (trans (reads hargs) (hinner (hargs.length_lt hm) hresume)) hbehind

/-- **What holds of arguments and is kept by reading on holds of uses.** -/
theorem Used.relation {m : Enabled t disabled} {rest out after : Text}
    (h : Used m rest (out, after)) : R rest after := by
  obtain ⟨hargs, -, -, hresume⟩ := h
  exact trans (reads hargs) (relation_of_resume refl trans reads hresume)

end Relation

/-- Of the text `rest`, `after` is left: what was read does not end in a literal, and if it is
something, it does not end in a name either. -/
def Passed (rest after : Text) : Prop :=
  ∃ s, rest = s ++ after ∧ Apart s after ∧ (s ≠ [] → endsInName s = false)

theorem Passed.refl (a : Text) : Passed a a := ⟨[], rfl, .nil a, fun h => absurd rfl h⟩

theorem Passed.trans {a b c : Text} (h : Passed a b) (h' : Passed b c) : Passed a c := by
  obtain ⟨s, rfl, hs, hend⟩ := h
  obtain ⟨s', rfl, hs', hend'⟩ := h'
  refine ⟨s ++ s', (List.append_assoc ..).symm, hs.append hs', fun hne => ?_⟩
  by_cases hnil : s' = []
  · subst hnil
    rw [List.append_nil] at hne ⊢
    exact hend hne
  · rw [endsInName_append hnil]
    exact hend' hnil

/-- A list of arguments does not end in a literal. -/
theorem IsArgumentList.apart {text after : Text} {pieces : List Text}
    (h : IsArgumentList text pieces after) :
    Apart ('(' :: Text.join [','] pieces ++ [')']) after := by
  obtain ⟨x, y, -, -, hout, -⟩ := h.closes
  rw [h.text_eq] at hout
  have hfront : Apart ('(' :: Text.join [','] pieces) (')' :: after) := by
    apply Quoted.apart_of_inside
    rwa [Text.size_cons]
  exact hfront.append (.mark (by decide) (.nil after))

/-- Behind its arguments a use is read on outside of literals. -/
theorem ReadsArgs.passed {m : Macro} {rest after : Text} {args : List Text}
    (h : ReadsArgs m rest args after) : Passed rest after := by
  cases h with
  | none => exact .refl rest
  | @some _ inner _ pieces _ hp hopen hcollect hmatch =>
    have hlist := collect?_eq_some_iff.mp hcollect
    obtain ⟨s, rfl, hspaces, -⟩ := exists_of_openParen? hopen
    have hquotes : ∀ c ∈ s, c ≠ '"' := by
      rintro c hc rfl
      cases hspaces _ hc
    refine ⟨s ++ ('(' :: Text.join [','] pieces ++ [')']), ?_, ?_, fun _ => ?_⟩
    · rw [List.append_assoc, List.append_assoc, List.singleton_append, ← hlist.text_eq]
    · exact (Quoted.apart_of_ne hquotes).append hlist.apart
    · rw [← List.append_assoc, endsInName_concat]
      rfl

/-- **Behind a use the text is read on outside of literals.** -/
theorem Used.passed {m : Enabled t disabled} {rest out after : Text}
    (h : Used m rest (out, after)) : Passed rest after :=
  h.relation .refl .trans ReadsArgs.passed

/-! ### Words behind a step -/

section Step

variable {text rest w : Text} {p : Piece} {ps : List Piece} {n : Nat}

/-- **Words stand behind a step where they stand in the text.** -/
theorem Step.outerWordAt (h : Step t disabled text p rest) (hw : OuterWordAt w n rest) :
    OuterWordAt w (size p.source + n) text := by
  cases h with
  | literal r => exact Text.outerWordAt_literal.mpr ⟨n, rfl, hw⟩
  | word hword => exact (Text.outerWordAt_word hword).mpr (.inr ⟨n, rfl, hw⟩)
  | @use w' args _ out m hword _ hused =>
    obtain ⟨s, hs, hapart, hend⟩ := hused.passed
    cases List.append_cancel_right hs
    have hquotes : Apart w' (args ++ rest) :=
      Quoted.apart_of_ne hword.ne_quote
    rw [← List.append_assoc]
    apply hw.append (hquotes.append hapart)
    intro hstart
    by_cases hnil : args = []
    · rw [hnil, List.nil_append] at hword
      rw [hword.startsInName_rest] at hstart
      cases hstart
    · rw [endsInName_append hnil]
      exact hend hnil
  | mark _ hq hc =>
    rw [Piece.source, Text.size_cons, Text.size_nil, Nat.add_zero]
    exact (Text.outerWordAt_mark hq hc).mpr ⟨n, rfl, hw⟩

/-- **Words stand behind many steps where they stand in the text.** -/
theorem Steps.outerWordAt {qs : List Piece} (h : Steps t disabled text qs rest)
    (hw : OuterWordAt w n rest) : OuterWordAt w (size (sources qs) + n) text := by
  induction h with
  | refl => rwa [sources_nil, Text.size_nil, Nat.zero_add]
  | cons hstep _ ih =>
    rw [sources_cons, Text.size_append, Nat.add_assoc]
    exact hstep.outerWordAt (ih hw)

/-! ### Pieces of a text -/

theorem source_ne_nil_of_mem_put (hp : p.source ≠ []) (hps : ∀ q ∈ ps, q.source ≠ []) :
    ∀ q ∈ put p ps, q.source ≠ [] := by
  have hcons : ∀ q ∈ p :: ps, q.source ≠ [] := List.forall_mem_cons.mpr ⟨hp, hps⟩
  cases p with
  | replaced s o => exact hcons
  | kept s =>
    rcases keep_eq s ps with hkeep | ⟨r, ps', rfl, hkeep⟩
    · rwa [put, hkeep]
    · rw [put, hkeep]
      exact List.forall_mem_cons.mpr
        ⟨List.append_ne_nil_of_left_ne_nil hp r, (List.forall_mem_cons.mp hps).2⟩

/-- No piece of a text is empty. -/
theorem source_ne_nil_of_scan (h : scan t disabled text = .ok ps) : ∀ p ∈ ps, p.source ≠ [] := by
  apply scan_induction (P := fun _ ps => ∀ p ∈ ps, p.source ≠ []) _ _ h
  · exact fun _ hp => absurd hp List.not_mem_nil
  · intro text rest p ps hstep ih
    exact source_ne_nil_of_mem_put hstep.source_ne_nil ih

/-- A use starts with the name of a macro that stands there outside of literals. -/
theorem exists_name_of_replaced {source out : Text} {a b : List Piece}
    (h : scan t disabled text = .ok ps) (hps : ps = a ++ .replaced source out :: b) :
    ∃ w, w <+: source ∧ t.isDefined (String.ofList w) = true ∧
      OuterWordAt w (size (sources a)) text := by
  apply scan_induction (P := fun text ps => ∀ a, ps = a ++ .replaced source out :: b →
    ∃ w, w <+: source ∧ t.isDefined (String.ofList w) = true ∧
      OuterWordAt w (size (sources a)) text) _ _ h a hps
  · intro a hps
    simp at hps
  · intro text rest p ps hstep ih a hps
    -- Behind the first step, the name stands where it stands in the rest.
    have behind : ∀ {a'}, ps = a' ++ .replaced source out :: b →
        sources a = p.source ++ sources a' → ∃ w, w <+: source ∧
          t.isDefined (String.ofList w) = true ∧ OuterWordAt w (size (sources a)) text := by
      intro a' heq ha
      obtain ⟨w, hw, hdef, houter⟩ := ih a' heq
      rw [ha, Text.size_append]
      exact ⟨w, hw, hdef, hstep.outerWordAt houter⟩
    cases p with
    | kept s =>
      obtain ⟨a', heq, ha⟩ := exists_of_keep_eq hps
      exact behind heq ha
    | replaced s o =>
      cases a with
      | nil =>
        cases hps
        cases hstep with
        | @use w args _ _ m hword henabled hused =>
          obtain ⟨hname, hdef⟩ := isDefined_of_enabled? (Option.isSome_of_eq_some henabled)
          refine ⟨w, List.prefix_append .., hdef, ?_⟩
          exact (Text.outerWordAt_word hword).mpr (.inl ⟨rfl, rfl, hname⟩)
      | cons q a =>
        cases hps
        exact behind rfl rfl

end Step

end Macro

/-! ### Spans -/

/-- The spans stand one behind the other from `lo` up to `hi`, and none is empty. -/
def Span.Tile : Nat → List Span → Nat → Prop
  | lo, [], hi => lo = hi
  | lo, s :: ss, hi => s.start = lo ∧ s.start < s.stop ∧ Span.Tile s.stop ss hi

namespace Macro

/-- The spans that pieces take up; the first of them starts at the offset. -/
def spansOf (offset : Nat) : List Piece → List Span
  | [] => []
  | p :: ps => ⟨offset, offset + size p.source⟩ :: spansOf (offset + size p.source) ps

/-- The piece is what stands in the text at the span.  If it is a use, it starts with the name
of a macro, which stands there as a whole word and outside of literals. -/
structure Piece.CutAt (t : Table) (text : Text) (s : Span) (p : Piece) : Prop where
  slice : Text.slice? s.start s.stop text = some p.source
  named : ∀ source out, p = .replaced source out → ∃ w, w <+: source ∧
    t.isDefined (String.ofList w) = true ∧ OuterWordAt w s.start text

section Spans

variable {t : Table} {text : Text} {ps : List Piece} {o : Nat}

theorem tile_spansOf (h : ∀ p ∈ ps, p.source ≠ []) :
    Span.Tile o (spansOf o ps) (o + size (sources ps)) := by
  induction ps generalizing o with
  | nil => rfl
  | cons p ps ih =>
    obtain ⟨hp, hps⟩ := List.forall_mem_cons.mp h
    have hpos := Text.size_pos hp
    refine ⟨rfl, Nat.lt_add_of_pos_right hpos, ?_⟩
    rw [sources_cons, Text.size_append, ← Nat.add_assoc]
    exact ih hps

/-- What holds of each piece and of the span behind the pieces in front of it. -/
theorem forall₂_spansOf {P : Span → Piece → Prop}
    (h : ∀ a p b, ps = a ++ p :: b →
      P ⟨o + size (sources a), o + size (sources a) + size p.source⟩ p) :
    List.Forall₂ P (spansOf o ps) ps := by
  induction ps generalizing o with
  | nil => exact .nil
  | cons p ps ih =>
    refine .cons (h [] p ps rfl) (ih fun a q b heq => ?_)
    have hq := h (p :: a) q b (congrArg (p :: ·) heq)
    rwa [sources_cons, Text.size_append, ← Nat.add_assoc] at hq

/-- A chunk is made from a piece and from where its span starts. -/
theorem chunksOf_eq_zipWith (file offset : Nat) (ps : List Piece) :
    Preprocessed.chunksOf file (offset + o) ps =
      List.zipWith (fun s p => Preprocessed.chunkOf file (offset + s.start) p)
        (spansOf o ps) ps := by
  induction ps generalizing o with
  | nil => rfl
  | cons p ps ih =>
    have hrest := ih (o := o + size p.source)
    rw [← Nat.add_assoc] at hrest
    cases p <;> exact congrArg (_ :: ·) hrest

/-- **The pieces of a text are cut from spans that tile it.** -/
theorem substitute_tiles (h : t.substitute text = .ok ps) :
    ∃ spans, Span.Tile 0 spans (size text) ∧
      List.Forall₂ (Piece.CutAt t text) spans ps ∧
      ∀ file offset, Preprocessed.chunksOf file offset ps =
        List.zipWith (fun s p => Preprocessed.chunkOf file (offset + s.start) p) spans ps := by
  have hsources := (scanned_of_scan h).source_eq
  refine ⟨spansOf 0 ps, ?_, ?_, fun file offset => chunksOf_eq_zipWith (o := 0) file offset ps⟩
  · have htile := tile_spansOf (o := 0) (source_ne_nil_of_scan h)
    rwa [hsources, Nat.zero_add] at htile
  · apply forall₂_spansOf
    intro a p b heq
    rw [Nat.zero_add]
    constructor
    · have hslice := Text.slice?_append (sources a) p.source (sources b)
      rw [← hsources, heq, sources_append, sources_cons]
      exact hslice
    · rintro source out rfl
      exact exists_name_of_replaced h heq

/-- The use takes its arguments behind the name, and its span ends with them. -/
theorem substitute_tiles_bracketTable :
    let ps : List Piece := [.replaced "G(1)".toList "[1]".toList, .kept "\"\x7d\"F\x7d(2)".toList]
    bracketTable.substitute "G(1)\"\x7d\"F\x7d(2)".toList = .ok ps ∧
      ∃ spans, Span.Tile 0 spans 12 ∧
        List.Forall₂ (Piece.CutAt bracketTable "G(1)\"\x7d\"F\x7d(2)".toList) spans ps ∧
        Preprocessed.chunksOf 0 7 ps =
          List.zipWith (fun s p => Preprocessed.chunkOf 0 (7 + s.start) p) spans ps := by
  intro ps
  have hrest : scan bracketTable [] "\"\x7d\"F\x7d(2)".toList =
      .ok [.kept "\"\x7d\"F\x7d(2)".toList] := by cbv
  have hps : bracketTable.substitute "G(1)\"\x7d\"F\x7d(2)".toList = .ok ps := by
    rw [Table.substitute, step_bracketTable.scan_eq, hrest]
    rfl
  obtain ⟨spans, htile, hcut, hchunks⟩ := substitute_tiles hps
  exact ⟨hps, spans, htile, hcut, hchunks 0 7⟩

end Spans

end Macro

end PixelWrap
