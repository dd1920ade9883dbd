import PixelWrap.Proofs.ArgumentLists

/-!
# Pasting marks and their operands

A pasting mark joins what stands on its two sides.  So the white space around a mark is dropped,
however many marks there are in a row, and an argument next to one goes in as written.  Nothing
else happens to a replacement text: all other segments are there in the order in which they were
cut, and white space that something keeps apart from every mark stays.

A segment is dropped or changed for what stands before and after it in the text that was cut,
while the marks next to it are those of the text that comes out.  The two are brought together by
what comes out first: this is a mark just if a mark follows in the text that was cut, white space
aside.

## Main definitions

* `Macro.Segment.unraw`: a segment as it was cut.
* `Macro.Segment.Settled`: what a segment may be next to a mark, and away from all of them.
* `Macro.ByPaste`, `Macro.nearPaste`: a mark stands next to a place, or next to the white space
  around it.
* `Macro.closeGaps`: the segments without the white space around marks.

## Main results

* `Macro.head?_markPasted`: what pasting puts out first.
* `Macro.settled_of_markPasted`: what pasting puts out is settled by the marks next to it.
* `Macro.map_unraw_markPasted`: pasting drops the white space around marks, and nothing else.
* `Macro.pasting_exact`: **marks settle exactly what stands next to them.**
-/

namespace PixelWrap.Macro

variable {s : Segment} {ss before after r : List Segment} {afterPaste : Bool}

/-! ### Segments -/

/-- The segment as it was cut: an argument, whether it goes in as written or not. -/
def Segment.unraw : Segment → Segment
  | .rawArg i => .arg i
  | s => s

theorem Segment.unraw_raw (s : Segment) : s.raw.unraw = s.unraw := by
  cases s <;> rfl

theorem Segment.isBlank_raw (s : Segment) : s.raw.isBlank = s.isBlank := by
  cases s <;> rfl

theorem Segment.raw_ne_arg (s : Segment) (i : Nat) : s.raw ≠ .arg i := by
  cases s <;> nofun

theorem Segment.raw_ne_paste (h : s ≠ .paste) : s.raw ≠ .paste := by
  cases s <;> simp_all [Segment.raw]

theorem Segment.ne_paste_of_isBlank (h : s.isBlank = true) : s ≠ .paste := by
  rintro rfl
  cases h

/-- By a mark the segment is neither white space nor an argument that is still to be replaced, and
elsewhere it is no argument as written. -/
structure Segment.Settled (s : Segment) (byMark : Prop) : Prop where
  operand : byMark → s.isBlank = false ∧ ∀ i, s ≠ .arg i
  marked : ∀ i, s = .rawArg i → byMark

/-- Cutting a text gives no arguments as written. -/
theorem unraw_of_mem_segments (params : Option (List String)) (body : Text) :
    ∀ s ∈ segments params body, s.unraw = s :=
  forall_mem_segments (P := fun s => s.unraw = s) (fun _ => rfl) rfl (fun _ _ _ => ⟨rfl, rfl⟩) body

/-! ### Marks next to a place -/

theorem pasteFollows_nil : pasteFollows [] = false := rfl

theorem pasteFollows_of_isBlank (h : s.isBlank = true) (r : List Segment) :
    pasteFollows (s :: r) = pasteFollows r := by
  rw [pasteFollows, List.dropWhile_cons_of_pos h, pasteFollows]

theorem pasteFollows_of_not_isBlank (h : s.isBlank = false) (r : List Segment) :
    pasteFollows (s :: r) = (s == .paste) := by
  rw [pasteFollows, List.dropWhile_cons_of_neg (by simp [h])]
  rfl

/-- A pasting mark stands right next to the place between the segments. -/
def ByPaste (before after : List Segment) : Prop :=
  before.getLast? = some .paste ∨ after.head? = some .paste

/-- Whether a pasting mark stands next to the place between the segments, white space aside. -/
def nearPaste (before after : List Segment) : Bool :=
  pasteFollows before.reverse || pasteFollows after

/-- Whether the segment, at its place in the list, is white space that a pasting mark stands next
to, other white space aside. -/
def isGap (ss : List Segment) (p : Segment × Nat) : Bool :=
  p.1.isBlank && nearPaste (ss.take p.2) (ss.drop (p.2 + 1))

/-- The segments without the white space around pasting marks. -/
def closeGaps (ss : List Segment) : List Segment :=
  (ss.zipIdx.filter fun p => !isGap ss p).map Prod.fst

/-- The same for segments that have others before them. -/
def closeGapsAfter (before ss : List Segment) : List Segment :=
  ((ss.zipIdx before.length).filter fun p => !isGap (before ++ ss) p).map Prod.fst

theorem isGap_append_cons (before : List Segment) (s : Segment) (r : List Segment) :
    isGap (before ++ s :: r) (s, before.length) =
      (s.isBlank && (pasteFollows before.reverse || pasteFollows r)) := by
  rw [isGap, nearPaste, List.take_left, ← List.drop_drop, List.drop_left]
  rfl

/-- The mark that stands before the segments that are still to come, if there is one. -/
def lead (afterPaste : Bool) : List Segment := if afterPaste then [.paste] else []

/-- Of what stands before a place, only the last segment counts. -/
theorem byPaste_append_cons {l : List Segment} :
    ByPaste (l ++ s :: before) after ↔ ByPaste (lead (s == .paste) ++ before) after := by
  have hlast : (l ++ s :: before).getLast? = some .paste ↔
      (lead (s == .paste) ++ before).getLast? = some .paste := by
    rcases List.eq_nil_or_concat before with rfl | ⟨before, d, rfl⟩
    · by_cases hs : s = .paste <;> simp [lead, hs]
    · rw [List.concat_eq_append, ← List.cons_append, ← List.append_assoc, ← List.append_assoc,
        List.getLast?_concat, List.getLast?_concat]
  rw [ByPaste, ByPaste, hlast]

/-! ### What pasting puts out -/

/-- Pasting puts out a mark first just if a mark comes next, white space aside. -/
theorem head?_markPasted (afterPaste : Bool) (ss : List Segment) :
    (markPasted afterPaste ss).head? = some .paste ↔ pasteFollows ss = true := by
  fun_induction markPasted afterPaste ss with
  | case1 => simp [pasteFollows_nil]
  | case2 afterPaste r ih => simp [pasteFollows_of_not_isBlank (s := .paste) rfl]
  | case3 afterPaste s r _ pasted hs _ ih => rw [ih, pasteFollows_of_isBlank hs]
  | case4 afterPaste s r _ pasted hs hpasted ih =>
    have hne := Segment.ne_paste_of_isBlank hs
    simp_all [pasted, pasteFollows_of_isBlank hs]
  | case5 afterPaste s r hpaste pasted hs ih =>
    have hne : s ≠ .paste := fun h => hpaste h
    have hraw : s.raw ≠ .paste := Segment.raw_ne_paste hne
    rw [pasteFollows_of_not_isBlank (by simpa using hs)]
    split <;> simp [hne, hraw]

/-- Next to a segment stands a mark if one stood there before pasting, white space aside. -/
theorem byPaste_markPasted (afterPaste : Bool) (r : List Segment) :
    ByPaste (lead afterPaste) (markPasted false r) ↔ (afterPaste || pasteFollows r) = true := by
  rw [ByPaste, head?_markPasted]
  cases afterPaste <;> simp [lead]

/-- A segment that goes in as written just if it is pasted is settled. -/
theorem settled_raw {d : Segment} {pasted : Bool} (hunraw : d.unraw = d)
    (hd : d.isBlank = false) : (if pasted then d.raw else d).Settled (pasted = true) := by
  cases pasted with
  | true =>
    refine ⟨fun _ => ⟨?_, Segment.raw_ne_arg d⟩, fun _ _ => rfl⟩
    exact (Segment.isBlank_raw d).trans hd
  | false =>
    refine ⟨nofun, ?_⟩
    rintro i rfl
    cases hunraw

/-- If pasting puts out a segment other than a mark, all is settled if this one and the rest are. -/
theorem settled_of_cons {d : Segment} {pasted : Bool}
    (hpasted : pasted = (afterPaste || pasteFollows r)) (hd : d ≠ .paste)
    (hsettled : d.Settled (pasted = true))
    (hrest : ∀ before, markPasted false r = before ++ s :: after →
      s.Settled (ByPaste (lead false ++ before) after))
    (h : d :: markPasted false r = before ++ s :: after) :
    s.Settled (ByPaste (lead afterPaste ++ before) after) := by
  cases before with
  | nil =>
    obtain ⟨rfl, rfl⟩ := List.cons.inj h
    rwa [List.append_nil, byPaste_markPasted, ← hpasted]
  | cons d' before =>
    obtain ⟨rfl, hmore⟩ := List.cons.inj h
    rw [byPaste_append_cons, beq_eq_false_iff_ne.mpr hd]
    exact hrest before hmore

/-- **What pasting puts out is settled by the marks next to it.** -/
theorem settled_of_markPasted (hss : ∀ s ∈ ss, s.unraw = s) (before : List Segment)
    (h : markPasted afterPaste ss = before ++ s :: after) :
    s.Settled (ByPaste (lead afterPaste ++ before) after) := by
  -- By induction on the segments, for every part of them that has come out.
  revert before
  fun_induction markPasted afterPaste ss with
  | case1 =>
    intro before h
    simp at h
  | case2 afterPaste r ih =>
    intro before h
    cases before with
    | nil =>
      obtain ⟨rfl, -⟩ := List.cons.inj h
      exact ⟨fun _ => ⟨rfl, by simp⟩, by simp⟩
    | cons d before =>
      obtain ⟨rfl, hrest⟩ := List.cons.inj h
      rw [byPaste_append_cons]
      exact ih (List.forall_mem_cons.mp hss).2 before hrest
  | case3 afterPaste d r _ pasted hd hpasted ih => exact ih (List.forall_mem_cons.mp hss).2
  | case4 afterPaste d r _ pasted hd hpasted ih =>
    obtain ⟨hunraw, hr⟩ := List.forall_mem_cons.mp hss
    have hsettled : d.Settled (pasted = true) := by
      refine ⟨fun h => absurd h hpasted, ?_⟩
      rintro i rfl
      cases hd
    intro before h
    exact settled_of_cons rfl (Segment.ne_paste_of_isBlank hd) hsettled (ih hr) h
  | case5 afterPaste d r hpaste pasted hd ih =>
    obtain ⟨hunraw, hr⟩ := List.forall_mem_cons.mp hss
    have hne : (if pasted then d.raw else d) ≠ .paste := by
      split
      · exact Segment.raw_ne_paste hpaste
      · exact hpaste
    intro before h
    exact settled_of_cons rfl hne (settled_raw hunraw (by simpa using hd)) (ih hr) h

/-! ### What pasting drops -/

/-- A mark stands before the next place just if the segment at this one is a mark, or white space
behind a mark. -/
theorem pasteFollows_reverse_concat (before : List Segment) (s : Segment) :
    pasteFollows (before ++ [s]).reverse =
      if s.isBlank then pasteFollows before.reverse else s == .paste := by
  rw [List.reverse_append, List.reverse_singleton, List.singleton_append]
  split
  · next hs => exact pasteFollows_of_isBlank hs _
  · next hs => exact pasteFollows_of_not_isBlank (by simpa using hs) _

theorem closeGapsAfter_cons (before : List Segment) (s : Segment) (r : List Segment) :
    closeGapsAfter before (s :: r) =
      if s.isBlank && (pasteFollows before.reverse || pasteFollows r) then
        closeGapsAfter (before ++ [s]) r
      else s :: closeGapsAfter (before ++ [s]) r := by
  rw [closeGapsAfter, closeGapsAfter, List.append_assoc, List.singleton_append, List.length_append,
    List.length_singleton, List.zipIdx_cons, List.filter_cons, isGap_append_cons]
  cases s.isBlank && (pasteFollows before.reverse || pasteFollows r) <;> rfl

/-- Pasting drops the white space around marks, where `before` has been seen before. -/
theorem map_unraw_markPasted (hss : ∀ s ∈ ss, s.unraw = s) (before : List Segment)
    (hbefore : pasteFollows before.reverse = afterPaste) :
    (markPasted afterPaste ss).map Segment.unraw = closeGapsAfter before ss := by
  revert before
  fun_induction markPasted afterPaste ss with
  | case1 => exact fun _ _ => rfl
  | case2 afterPaste r ih =>
    intro before hbefore
    rw [closeGapsAfter_cons]
    refine congrArg (Segment.paste :: ·) (ih (List.forall_mem_cons.mp hss).2 _ ?_)
    exact pasteFollows_reverse_concat before .paste
  | case3 afterPaste s r _ pasted hs hpasted ih =>
    intro before hbefore
    rw [closeGapsAfter_cons, hs, hbefore, Bool.true_and, if_pos hpasted]
    apply ih (List.forall_mem_cons.mp hss).2
    rw [pasteFollows_reverse_concat, if_pos hs, hbefore]
  | case4 afterPaste s r _ pasted hs hpasted ih =>
    obtain ⟨hunraw, hr⟩ := List.forall_mem_cons.mp hss
    intro before hbefore
    rw [closeGapsAfter_cons, hs, hbefore, Bool.true_and, if_neg hpasted, List.map_cons, hunraw]
    refine congrArg (s :: ·) (ih hr _ ?_)
    rw [pasteFollows_reverse_concat, if_pos hs, hbefore]
    exact (Bool.or_eq_false_iff.mp (Bool.eq_false_of_not_eq_true hpasted)).1
  | case5 afterPaste s r hpaste pasted hs ih =>
    obtain ⟨hunraw, hr⟩ := List.forall_mem_cons.mp hss
    have hhead : (if pasted then s.raw else s).unraw = s := by
      split
      · rw [Segment.unraw_raw, hunraw]
      · exact hunraw
    intro before hbefore
    rw [closeGapsAfter_cons, Bool.eq_false_of_not_eq_true hs, Bool.false_and, List.map_cons, hhead]
    refine congrArg (s :: ·) (ih hr _ ?_)
    rw [pasteFollows_reverse_concat, if_neg hs, beq_eq_false_iff_ne]
    exact hpaste

/-- Gaps are white space, so all other segments stay. -/
theorem filter_closeGapsAfter (before ss : List Segment) :
    (closeGapsAfter before ss).filter (!·.isBlank) = ss.filter (!·.isBlank) := by
  induction ss generalizing before with
  | nil => rfl
  | cons s r ih =>
    have hmore := ih (before ++ [s])
    rw [closeGapsAfter_cons]
    cases hs : s.isBlank with
    | false =>
      rw [Bool.false_and, if_neg Bool.false_ne_true, List.filter_cons, List.filter_cons, hmore]
    | true =>
      rw [List.filter_cons_of_neg (l := r) (by simp [hs]), ← hmore]
      split
      · rfl
      · exact List.filter_cons_of_neg (by simp [hs])

/-- **Marks settle exactly what stands next to them.**  In a replacement text, no white space and
no argument that is still to be replaced stands next to a mark, and an argument goes in as written
only there.  Without this difference and without white space, the text is the one that was cut;
with white space, it is that one without the white space around marks. -/
theorem pasting_exact {name : String} {params : Option (List String)} {body : Text} {m : Macro}
    (hm : ofDefinition? name params body = some m) :
    (∀ before s after, m.body = before ++ s :: after → s.Settled (ByPaste before after)) ∧
      (m.body.map Segment.unraw).filter (!·.isBlank) =
        (segments (params.map (List.map paramName)) body).filter (!·.isBlank) ∧
      m.body.map Segment.unraw = closeGaps (segments (params.map (List.map paramName)) body) := by
  have hss := unraw_of_mem_segments (params.map (List.map paramName)) body
  rw [ofDefinition?] at hm
  split at hm
  · cases hm
    have hclose := map_unraw_markPasted hss [] pasteFollows_nil
    refine ⟨fun before s after h => settled_of_markPasted hss before h, ?_, hclose⟩
    rw [hclose]
    exact filter_closeGapsAfter [] _
  · cases hm

/-- A macro whose text has marks in a row, at its end, and next to a literal. -/
def operandsMacro : Macro where
  name := "F"
  params := some ["x", "y"]
  variadic := false
  body := [.rawArg 0, .paste, .paste, .text "\"s\"".toList, .text [' '], .arg 1, .text [' '],
    .quoted 0, .paste, .rawArg 1, .text [' ', ' '], .text ['z'], .paste]

/-- White space between words stays, and so does an argument that no mark stands next to. -/
theorem pasting_exact_operandsMacro :
    ofDefinition? "F" (some ["x", "y"]) "x  ## ## \"s\" y #x ## y  z ##".toList =
        some operandsMacro ∧
      (∀ before s after, operandsMacro.body = before ++ s :: after →
        s.Settled (ByPaste before after)) ∧
      (operandsMacro.body.map Segment.unraw).filter (!·.isBlank) =
        [.arg 0, .paste, .paste, .text "\"s\"".toList, .arg 1, .quoted 0, .paste, .arg 1,
          .text ['z'], .paste] ∧
      operandsMacro.body.map Segment.unraw =
        closeGaps [.arg 0, .text [' ', ' '], .paste, .text [' '], .paste, .text [' '],
          .text "\"s\"".toList, .text [' '], .arg 1, .text [' '], .quoted 0, .text [' '], .paste,
          .text [' '], .arg 1, .text [' ', ' '], .text ['z'], .text [' '], .paste] := by
  have hm : ofDefinition? "F" (some ["x", "y"]) "x  ## ## \"s\" y #x ## y  z ##".toList =
      some operandsMacro := by
    cbv
  have hsegments : segments ((some ["x", "y"]).map (List.map paramName))
      "x  ## ## \"s\" y #x ## y  z ##".toList =
        [.arg 0, .text [' ', ' '], .paste, .text [' '], .paste, .text [' '],
          .text "\"s\"".toList, .text [' '], .arg 1, .text [' '], .quoted 0, .text [' '], .paste,
          .text [' '], .arg 1, .text [' ', ' '], .text ['z'], .text [' '], .paste] := by
    cbv
  obtain ⟨hsettled, hfilter, hclose⟩ := pasting_exact hm
  rw [hsegments] at hfilter hclose
  exact ⟨hm, hsettled, hfilter.trans (by decide), hclose⟩

end PixelWrap.Macro
