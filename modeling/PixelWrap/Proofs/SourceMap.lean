import Mathlib
import PixelWrap.Proofs.Offsets
import PixelWrap.Proofs.Pieces
import PixelWrap.Proofs.Visits

/-!
# Every byte of the output leads back to its source

The segments of the output are kept in order by every push, and each byte that is put
out leads to the place its chunk names for it, whether or not the chunk has got a
segment of its own.  So it is enough to look at the chunks: a copied one stands in its
file, and an inserted one belongs to a use of a macro or to an `#include`.

## Main definitions

* `Output.WellFormed`: the segments are in order and start with the output.
* `Origin.at`: the place of a byte of a chunk.
* `Preprocessed.Visit.NamesMacro`, `Preprocessed.Visit.IncludesAt`: the two reasons to
  insert text at an offset.
* `Preprocessed.LeadsTo`: a byte leads back to a place, which is what it should be.

## Main results

* `Output.WellFormed.push`: pushing a chunk keeps the segments in order.
* `Output.place?_push_of_le`: the bytes of a chunk lead to the places it names.
* `Preprocessed.sourceMap_sound`: **the map from the output to the files is right.**
-/

namespace PixelWrap

/-! ### Segments in order -/

/-- The place that the byte at distance `d` from the start of a chunk comes from. -/
def Origin.at (o : Origin) (d : Nat) : Place :=
  match o with
  | .copied file offset => ⟨file, offset + d, true⟩
  | .inserted file offset => ⟨file, offset, false⟩

theorem Origin.place_of_le (o : Origin) {size d : Nat} (h : d ≤ size) :
    o.place size d = o.at d := by
  cases o with
  | copied file offset => rw [Origin.place, Origin.at, wrapBeyond_of_le (by omega)]
  | inserted file offset => rfl

namespace Output

/-- The segments of the output are in order, lie inside of it, and start with it. -/
structure WellFormed (o : Output) : Prop where
  increasing : o.segments.Pairwise fun a b => a.start < b.start
  inside : ∀ s ∈ o.segments, s.start < Text.size o.code
  first : o.code ≠ [] → o.segments.head?.map Segment.start = some 0

theorem WellFormed.empty : WellFormed {} :=
  ⟨.nil, by simp, by simp⟩

theorem WellFormed.code_ne_nil {o : Output} (h : o.WellFormed) {s : Segment}
    (hs : s ∈ o.segments) : o.code ≠ [] := by
  intro hc
  have := h.inside s hs
  rw [hc] at this
  exact absurd this (Nat.not_lt_zero _)

variable {o : Output} {c : Chunk} {p : Nat}

theorem push_of_empty (hc : c.text = []) : o.push c = o := by
  rw [push, hc]
  rfl

theorem code_push : (o.push c).code = o.code ++ c.text := by
  by_cases hc : c.text = []
  · rw [push_of_empty hc, hc, List.append_nil]
  · rw [push, if_neg (by simpa using hc)]

/-- A push either starts a segment or goes on with the last one. -/
theorem segments_push (hc : c.text ≠ []) :
    (∃ s, o.segments.getLast? = some s ∧ s.continues (Text.size o.code) c.origin = true ∧
      (o.push c).segments = o.segments) ∨
    (o.push c).segments = o.segments ++ [⟨Text.size o.code, c.origin⟩] := by
  rw [push, if_neg (by simpa using hc)]
  dsimp only
  cases o.segments.getLast? with
  | none => exact .inr rfl
  | some s =>
    by_cases h : s.continues (Text.size o.code) c.origin = true
    · exact .inl ⟨s, rfl, h, if_pos h⟩
    · exact .inr (if_neg h)

/-- **Pushing a chunk keeps the segments in order.** -/
theorem WellFormed.push (h : o.WellFormed) (c : Chunk) : (o.push c).WellFormed := by
  by_cases hc : c.text = []
  · rw [push_of_empty hc]
    exact h
  have hsize : Text.size (o.push c).code = Text.size o.code + Text.size c.text := by
    rw [code_push, Text.size_append]
  have hpos := Text.size_pos hc
  rcases segments_push (o := o) hc with ⟨s, hs, -, hseg⟩ | hseg
  · refine ⟨hseg ▸ h.increasing, fun s hs => ?_, fun _ => ?_⟩
    · rw [hseg] at hs
      have := h.inside s hs
      omega
    · rw [hseg]
      exact h.first (h.code_ne_nil (List.mem_of_getLast? hs))
  · refine ⟨?_, fun s hs => ?_, fun _ => ?_⟩
    · rw [hseg, List.pairwise_append]
      refine ⟨h.increasing, List.pairwise_singleton _ _, fun a ha b hb => ?_⟩
      cases List.mem_singleton.mp hb
      exact h.inside a ha
    · rw [hseg] at hs
      rcases List.mem_append.mp hs with hs | hs
      · have := h.inside s hs
        omega
      · cases List.mem_singleton.mp hs
        show Text.size o.code < _
        omega
    · rw [hseg]
      cases hos : o.segments with
      | nil =>
        -- Without segments nothing has been put out yet.
        have hcode : o.code = [] := by
          by_contra hne
          have := h.first hne
          rw [hos] at this
          cases this
        rw [hcode]
        rfl
      | cons s ss =>
        have := h.first (h.code_ne_nil (s := s) (by rw [hos]; exact List.mem_cons_self ..))
        rw [hos] at this
        exact this

/-! ### Where the bytes of a chunk lead -/

theorem place?_of_lt (hp : p < Text.size o.code) :
    o.place? p = (o.segment? p).map fun s => s.origin.at (p - s.start) := by
  unfold place?
  congr 1
  funext s
  exact s.origin.place_of_le (by omega)

/-- What has been put out before keeps its place. -/
theorem place?_push_of_lt (hp : p < Text.size o.code) :
    (o.push c).place? p = o.place? p := by
  by_cases hc : c.text = []
  · rw [push_of_empty hc]
  have hp' : p < Text.size (o.push c).code := by
    rw [code_push, Text.size_append]
    omega
  rw [place?_of_lt hp, place?_of_lt hp']
  congr 1
  unfold segment?
  rcases segments_push (o := o) hc with ⟨s, -, -, hseg⟩ | hseg
  · rw [hseg]
  -- A new segment starts behind `p`, so that it does not change which one is the last.
  · rw [hseg, List.takeWhile_append]
    have : ¬Text.size o.code ≤ p := by omega
    split
    · next hall =>
      have hpre := List.takeWhile_prefix (l := o.segments) fun s => decide (s.start ≤ p)
      rw [List.takeWhile_cons_of_neg (by simpa using this), List.append_nil,
        hpre.eq_of_length hall]
    · rfl

/-- **The bytes of a chunk lead to the places that it names**, also where the chunk goes
on with the segment before it. -/
theorem place?_push_of_le (h : o.WellFormed) (hp : Text.size o.code ≤ p)
    (hp' : p < Text.size (o.push c).code) :
    (o.push c).place? p = some (c.origin.at (p - Text.size o.code)) := by
  have hc : c.text ≠ [] := by
    intro hc
    rw [push_of_empty hc] at hp'
    omega
  have hall : ∀ s ∈ o.segments, decide (s.start ≤ p) = true := by
    intro s hs
    have := h.inside s hs
    simp only [decide_eq_true_eq]
    omega
  rw [place?_of_lt hp', segment?]
  rcases segments_push (o := o) hc with ⟨s, hs, hcont, hseg⟩ | hseg
  · have htake : o.segments.takeWhile (fun s => decide (s.start ≤ p)) = o.segments :=
      List.takeWhile_eq_self_iff.mpr hall
    rw [hseg, htake, hs, Option.map_some]
    have hstart := h.inside s (List.mem_of_getLast? hs)
    -- Both are copied from one file, and the chunk starts where the segment stopped.
    obtain ⟨start, origin⟩ := s
    cases origin with
    | inserted file offset => cases hcont
    | copied file offset =>
      cases hco : c.origin with
      | inserted file' offset' => rw [hco] at hcont; cases hcont
      | copied file' offset' =>
        rw [hco] at hcont
        simp only [Segment.continues, Bool.and_eq_true, beq_iff_eq] at hcont
        obtain ⟨rfl, rfl⟩ := hcont
        simp only [Origin.at, Option.some.injEq, Place.mk.injEq, and_true, true_and]
        dsimp only at hstart
        omega
  · rw [hseg, List.takeWhile_append_of_pos hall,
      List.takeWhile_cons_of_pos (by simpa using hp)]
    simp

end Output

namespace Preprocessed

open Macro (sources startsInName endsInName)

/-! ### What the bytes of a chunk lead to -/

/-- At the offset, in a region that is put out, stands the name of a macro that is
defined at that moment, as a whole word. -/
def Visit.NamesMacro (v : Visit) (offset : Nat) : Prop :=
  ∃ start before word after, v.item = .region start (before ++ word ++ after) ∧
    offset = start + Text.size before ∧ v.state.groups.isActive = true ∧
    Text.isName word = true ∧ endsInName before = false ∧ startsInName after = false ∧
    v.state.macros.isDefined (String.ofList word) = true ∧
    Text.StandsAt word offset v.entry.file.code

/-- At the offset stands the `#` of an `#include`. -/
def Visit.IncludesAt (v : Visit) (offset : Nat) : Prop :=
  ∃ command operands, v.item = .directive offset command ∧
    Directive.ofCommand command = .includeFile operands ∧
    Text.StandsAt ['#'] offset v.entry.file.code

/-- The byte `p` of a text leads back to the place: it lies inside of a file; a copied
byte is found there; and an inserted byte belongs to a use of a macro or to an
`#include` that was visited there. -/
def LeadsTo (R : Visit → Prop) (files : List SourceFile) (code : Text) (p : Nat)
    (place : Place) : Prop :=
  ∃ file, files[place.file]? = some file ∧ place.offset < Text.size file.text ∧
    (place.isCopy = true → (Text.bytes file.code)[place.offset]? = (Text.bytes code)[p]?) ∧
    (place.isCopy = false → ∃ v, R v ∧ v.entry = ⟨place.file, file⟩ ∧
      (v.NamesMacro place.offset ∨ v.IncludesAt place.offset))

variable {R : Visit → Prop} {files files' : List SourceFile} {code : Text} {p : Nat}
  {place : Place}

theorem LeadsTo.mono (h : LeadsTo R files code p place) (hf : files <+: files') :
    LeadsTo R files' code p place := by
  obtain ⟨file, hfile, h⟩ := h
  exact ⟨file, getElem?_of_isPrefix hf hfile, h⟩

/-- Only the byte itself counts. -/
theorem LeadsTo.congr {code' : Text} {p' : Nat} (h : LeadsTo R files code p place)
    (hb : (Text.bytes code')[p']? = (Text.bytes code)[p]?) : LeadsTo R files code' p' place := by
  obtain ⟨file, hfile, hlt, hcopy, hins⟩ := h
  exact ⟨file, hfile, hlt, fun hc => (hcopy hc).trans hb.symm, hins⟩

/-- Every byte of the chunk leads to the place that the chunk names for it. -/
def ChunkSound (R : Visit → Prop) (files : List SourceFile) (c : Chunk) : Prop :=
  ∀ d < Text.size c.text, LeadsTo R files c.text d (c.origin.at d)

/-- The segments are in order, and every byte leads to the place that they give. -/
structure Sound (R : Visit → Prop) (files : List SourceFile) (o : Output) : Prop where
  wellFormed : o.WellFormed
  leads : ∀ p < Text.size o.code, ∃ place, o.place? p = some place ∧
    LeadsTo R files o.code p place

theorem Sound.mono {o : Output} (h : Sound R files o) (hf : files <+: files') :
    Sound R files' o := by
  refine ⟨h.wellFormed, fun p hp => ?_⟩
  obtain ⟨place, hplace, hl⟩ := h.leads p hp
  exact ⟨place, hplace, hl.mono hf⟩

/-- **Pushing a sound chunk keeps the map sound.** -/
theorem Sound.push {o : Output} {c : Chunk} (h : Sound R files o) (hc : ChunkSound R files c) :
    Sound R files (o.push c) := by
  refine ⟨h.wellFormed.push c, fun p hp => ?_⟩
  have hcode := Output.code_push (o := o) (c := c)
  rcases Nat.lt_or_ge p (Text.size o.code) with hlt | hge
  · obtain ⟨place, hplace, hl⟩ := h.leads p hlt
    refine ⟨place, (Output.place?_push_of_lt hlt).trans hplace, hl.congr ?_⟩
    rw [hcode, Text.bytes_append, List.getElem?_append_left (by rwa [Text.length_bytes])]
  · refine ⟨_, Output.place?_push_of_le h.wellFormed hge hp, (hc _ ?_).congr ?_⟩
    · rw [hcode, Text.size_append] at hp
      omega
    · rw [hcode, Text.bytes_append, List.getElem?_append_right (by rwa [Text.length_bytes]),
        Text.length_bytes]

theorem Sound.foldl_push {o : Output} {cs : List Chunk} (h : Sound R files o)
    (hc : ∀ c ∈ cs, ChunkSound R files c) : Sound R files (cs.foldl Output.push o) := by
  induction cs generalizing o with
  | nil => exact h
  | cons c cs ih =>
    exact ih (h.push (hc c (List.mem_cons_self ..)))
      fun c' hc' => hc c' (List.mem_cons_of_mem _ hc')

/-! ### The chunks of a run -/

theorem chunkSound_copied {e : Entry} {s : Text} {offset : Nat}
    (he : files[e.index]? = some e.file) (hs : Text.StandsAt s offset e.file.code) :
    ChunkSound R files ⟨s, .copied e.index offset⟩ := by
  intro d hd
  refine ⟨e.file, he, ?_, fun _ => hs.getElem?_bytes hd, fun h => by cases h⟩
  have hsize := hs.add_size_le
  rw [SourceFile.size_code] at hsize
  dsimp only [Origin.at] at hd ⊢
  omega

/-- What stands at an offset of a file that text is inserted at takes up some bytes. -/
theorem Visit.lt_size {v : Visit} {offset : Nat} (h : v.NamesMacro offset ∨ v.IncludesAt offset) :
    offset < Text.size v.entry.file.text := by
  rw [← SourceFile.size_code]
  rcases h with ⟨_, _, word, _, _, _, _, hname, _, _, _, hs⟩ | ⟨_, _, _, _, hs⟩
  · have hpos : 0 < Text.size word := Text.size_pos fun hnil => by
      rw [hnil] at hname
      cases hname
    have := hs.add_size_le
    omega
  · have := hs.add_size_le
    have hpos : 0 < Text.size ['#'] := Text.size_pos (by simp)
    omega

theorem chunkSound_inserted {v : Visit} {s : Text} {offset : Nat} (hv : R v)
    (he : files[v.entry.index]? = some v.entry.file)
    (h : v.NamesMacro offset ∨ v.IncludesAt offset) :
    ChunkSound R files ⟨s, .inserted v.entry.index offset⟩ :=
  fun _ _ => ⟨v.entry.file, he, Visit.lt_size h, (fun h => by cases h), fun _ => ⟨v, hv, rfl, h⟩⟩

/-- The chunk of one piece that starts at the offset. -/
def chunkOf (file offset : Nat) : Macro.Piece → Chunk
  | .kept source => ⟨source, .copied file offset⟩
  | .replaced _ output => ⟨output, .inserted file offset⟩

theorem exists_of_mem_chunksOf {file offset : Nat} {ps : List Macro.Piece} {c : Chunk}
    (h : c ∈ chunksOf file offset ps) :
    ∃ a q b, ps = a ++ q :: b ∧ c = chunkOf file (offset + Text.size (sources a)) q := by
  induction ps generalizing offset with
  | nil => cases h
  | cons q ps ih =>
    have further : c ∈ chunksOf file (offset + Text.size q.source) ps →
        ∃ a q' b, q :: ps = a ++ q' :: b ∧
          c = chunkOf file (offset + Text.size (sources a)) q' := by
      intro hc
      obtain ⟨a, q', b, rfl, rfl⟩ := ih hc
      refine ⟨q :: a, q', b, rfl, ?_⟩
      rw [Macro.sources_cons, Text.size_append, Nat.add_assoc]
    cases q with
    | kept source =>
      rcases List.mem_cons.mp h with rfl | hc
      · exact ⟨[], _, ps, rfl, rfl⟩
      · exact further hc
    | replaced source output =>
      rcases List.mem_cons.mp h with rfl | hc
      · exact ⟨[], _, ps, rfl, rfl⟩
      · exact further hc

/-- **The chunks of a region are sound.** -/
theorem chunkSound_of_region {v : Visit} {offset : Nat} {text : Text}
    {pieces : List Macro.Piece} (hv : R v) (hw : v.WellPlaced)
    (hi : v.item = .region offset text) (ha : v.state.groups.isActive = true)
    (hp : v.state.macros.substitute text = .ok pieces) :
    ∀ c ∈ chunksOf v.entry.index offset pieces, ChunkSound R v.state.files c := by
  intro c hc
  obtain ⟨a, q, b, rfl, rfl⟩ := exists_of_mem_chunksOf hc
  have hscan := Macro.scanned_of_scan hp
  have hregion : Text.StandsAt text offset v.entry.file.code := by
    have := Item.standsIn_of_mem_ofText hw.mem
    rw [hi] at this
    exact this
  have htext : text = sources a ++ q.source ++ sources b := by
    rw [← hscan.source_eq]
    simp
  cases q with
  | kept source =>
    refine chunkSound_copied hw.registered ?_
    rw [htext] at hregion
    exact hregion.append_left.append_right
  | replaced source output =>
    obtain ⟨⟨word, after, hword, hname⟩, -⟩ := hscan.namesReplaced rfl
    have hcut : text = sources a ++ word ++ after := by
      rw [htext, Macro.Piece.source, List.append_assoc, hword, List.append_assoc]
    refine chunkSound_inserted hv hw.registered (.inl ?_)
    obtain ⟨hisName, hdef⟩ := Macro.isDefined_of_enabled? hname.enabled
    refine ⟨offset, sources a, word, after, by rw [hi, hcut], rfl, ha, hisName, hname.left,
      hname.right, hdef, ?_⟩
    rw [hcut] at hregion
    exact hregion.append_left.append_right

/-- The line feed behind an included file is sound. -/
theorem chunkSound_lineFeed {v : Visit} {offset : Nat} {command : Command} {entry : Entry}
    (hv : R v) (hw : v.WellPlaced) (hf : v.state.files <+: files)
    (hi : v.item = .directive offset command) (hl : Loads load v.state v.item entry) :
    ChunkSound R files ⟨['\n'], .inserted v.entry.index offset⟩ := by
  refine chunkSound_inserted hv (getElem?_of_isPrefix hf hw.registered) (.inr ?_)
  have hhash := Item.standsIn_of_mem_ofText hw.mem
  rw [hi] at hl hhash
  cases hl with
  | mk _ hd _ _ => exact ⟨command, _, hi, hd, hhash⟩

/-- **The map from the output to the files is right.**  The segments are in order and
start with the output.  Every byte of the output leads to an offset inside of a file.  If
it was copied, the file without its comments has the same byte there; and otherwise the
offset is that of the name of a macro, defined when its region was put out, or that of
the `#` of an `#include`. -/
theorem sourceMap_sound (load : String → Option Text) (name : Option String) (text : Text)
    {t : Preprocessed} (h : (run load name text).result = .ok t) :
    t.segments.Pairwise (fun a b => a.start < b.start) ∧
    (t.code ≠ [] → t.segments.head?.map Segment.start = some 0) ∧
    ∀ p < Text.size t.code, ∃ place file, t.place? p = some place ∧
      t.files[place.file]? = some file ∧ place.offset < Text.size file.text ∧
      (place.isCopy = true → (Text.bytes file.code)[place.offset]? = (Text.bytes t.code)[p]?) ∧
      (place.isCopy = false → ∃ v, Visited load name text v ∧ v.entry = ⟨place.file, file⟩ ∧
        (v.NamesMacro place.offset ∨ v.IncludesAt place.offset)) := by
  have hsound : Sound (Visited load name text) t.files t.toOutput := by
    refine invariant_of_run (P := Sound (Visited load name text)) ?_ ?_ ?_ ?_ h
    · exact ⟨Output.WellFormed.empty, fun p hp => absurd hp (Nat.not_lt_zero p)⟩
    · intro v offset region pieces hv hP hi ha hp
      exact hP.foldl_push (chunkSound_of_region hv hv.wellPlaced hi ha hp)
    · intro files file o hP
      exact hP.mono (List.prefix_append _ _)
    · intro v offset command entry files o hv hP hf hi hl
      exact hP.foldl_push fun c hc =>
        List.mem_singleton.mp hc ▸ chunkSound_lineFeed hv hv.wellPlaced hf hi hl
  refine ⟨hsound.wellFormed.increasing, hsound.wellFormed.first, fun p hp => ?_⟩
  obtain ⟨place, hplace, file, hfile, hlt, hcopy, hins⟩ := hsound.leads p hp
  exact ⟨place, file, hplace, hfile, hlt, hcopy, hins⟩

/-- What a main file gives that includes a file of one line and then uses a macro. -/
def includingOutput : Preprocessed where
  files := [⟨none, "#include <f>\n#define A b\nx A\n".toList⟩, ⟨some "f", ['y', '\n']⟩]
  code := "y\n\nx b\n".toList
  segments := [⟨0, .copied 1 0⟩, ⟨2, .inserted 0 0⟩, ⟨3, .copied 0 25⟩, ⟨5, .inserted 0 27⟩,
    ⟨6, .copied 0 28⟩]

theorem run_includingOutput :
    (run (fun _ => some ['y', '\n']) none "#include <f>\n#define A b\nx A\n".toList).result =
      .ok includingOutput := by
  cbv

/-- The output has copied bytes of two files, the line feed after an included file and the
replacement of a macro. -/
theorem sourceMap_sound_include :
    ∃ t, (run (fun _ => some ['y', '\n']) none "#include <f>\n#define A b\nx A\n".toList).result =
        .ok t ∧
      t.code = "y\n\nx b\n".toList ∧
      t.segments.map Segment.start = [0, 2, 3, 5, 6] ∧
      t.place? 5 = some ⟨0, 27, false⟩ ∧
      ∀ p < Text.size t.code, ∃ place file, t.place? p = some place ∧
        t.files[place.file]? = some file ∧ place.offset < Text.size file.text := by
  obtain ⟨-, -, hmap⟩ := sourceMap_sound _ _ _ run_includingOutput
  refine ⟨includingOutput, run_includingOutput, rfl, rfl, by cbv, fun p hp => ?_⟩
  obtain ⟨place, file, hplace, hfile, hlt, -, -⟩ := hmap p hp
  exact ⟨place, file, hplace, hfile, hlt⟩

end Preprocessed

end PixelWrap
