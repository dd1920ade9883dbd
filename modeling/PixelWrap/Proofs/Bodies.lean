import PixelWrap.Proofs.FunctionNames
import PixelWrap.Proofs.SourceOrder

/-!
# Where the bodies of functions stand

The body of a function is found among the tokens of the output, where its braces match.  Its
text is looked up in another text: if both outer braces are copies from one file it is taken
from that file, comments and directives included, and otherwise from the output.  Either way
it starts with the one brace and ends with the other.  A brace takes up one byte, which no
comment has blanked, so a copied one stands in its file as well.

## Main definitions

* `Preprocessed.GivenByMacro`: a byte of the output is part of what a macro gives.
* `Span.holds`: a span lies inside of another one.
* `Decl.Levels`, `Decl.Encloses`: brackets that are all closed, and tokens between a bracket and
  the one that closes it.

## Main results

* `Preprocessed.insertsTraced_of_run`: **only a macro gives what is no copy**, line feeds
  apart.
* `Preprocessed.sourceText_of_braces`: what is shown of a stretch between two braces.
* `Token.filter_holds_spanOf`: the tokens inside of the span of some tokens are these.
* `Decl.exists_of_balanced_encloses`: brackets that are read match.
* `Decl.body_exact`: **the body of a function is exactly what its braces enclose.**
-/

namespace PixelWrap

open Macro (sources flatten)

/-! ### Characters of one byte -/

namespace Text

variable {t w : Text} {c d : Char} {n : Nat}

/-- A character of one byte is known by the byte. -/
theorem eq_of_toUInt8 (hc : c.utf8Size = 1) (hd : d.utf8Size = 1)
    (h : c.val.toUInt8 = d.val.toUInt8) : c = d := by
  have hval := congrArg UInt8.toNat h
  rw [Char.utf8Size_eq_one_iff, UInt32.le_iff_toNat_le] at hc hd
  simp only [UInt32.toNat_toUInt8, UInt32.reduceToNat] at hval hc hd
  refine Char.ext (UInt32.toNat_inj.mp ?_)
  omega

/-- The first byte of a character stands where the text in front of it stops. -/
theorem getElem?_bytes_append (hc : c.utf8Size = 1) (x y : Text) :
    (bytes (x ++ c :: y))[size x]? = some c.val.toUInt8 := by
  rw [bytes_append, List.getElem?_append_right (by rw [length_bytes]), length_bytes,
    Nat.sub_self, bytes_cons, String.utf8EncodeChar_eq_singleton hc]
  rfl

theorem toUInt8_lt (hc : c.utf8Size = 1) : c.val.toUInt8 < 128 := by
  rw [Char.utf8Size_eq_one_iff, UInt32.le_iff_toNat_le] at hc
  rw [UInt8.lt_iff_toNat_lt, UInt32.toNat_toUInt8]
  simp only [UInt32.reduceToNat, UInt8.reduceToNat] at hc ⊢
  omega

/-- And at such a byte the character stands. -/
theorem exists_of_getElem?_bytes (hc : c.utf8Size = 1)
    (h : (bytes t)[n]? = some c.val.toUInt8) : ∃ x y, t = x ++ c :: y ∧ size x = n := by
  have hascii : AsciiAt t n := ⟨_, h, toUInt8_lt hc⟩
  obtain ⟨x, d, y, rfl, rfl, hd⟩ := hascii.exists_eq
  rw [getElem?_bytes_append hd] at h
  obtain rfl : d = c := eq_of_toUInt8 hd hc (Option.some.inj h)
  exact ⟨x, y, rfl, rfl⟩

/-- A text that stands where there are two characters starts and ends with these. -/
theorem StandsAt.ends (h : StandsAt w n t) (hw : w ≠ []) (hc : c.utf8Size = 1)
    (hd : d.utf8Size = 1) (hfirst : (bytes t)[n]? = some c.val.toUInt8)
    (hlast : (bytes t)[n + size w - 1]? = some d.val.toUInt8) :
    w.head? = some c ∧ w.getLast? = some d := by
  have hpos := size_pos hw
  constructor
  · have hbyte := h.getElem?_bytes hpos
    rw [Nat.add_zero, hfirst] at hbyte
    obtain ⟨x, y, rfl, hx⟩ := exists_of_getElem?_bytes hc hbyte.symm
    obtain rfl : x = [] := eq_nil_of_size hx
    rfl
  · have hbyte := h.getElem?_bytes (d := size w - 1) (by omega)
    rw [← Nat.add_sub_assoc (by omega), hlast] at hbyte
    obtain ⟨x, y, rfl, hx⟩ := exists_of_getElem?_bytes hd hbyte.symm
    obtain rfl : y = [] := by
      rw [size_append, size_cons] at hx
      exact eq_nil_of_size (by omega)
    rw [List.getLast?_concat]

end Text

/-! ### What is put out and no copy -/

namespace Preprocessed

variable {load : String → Option Text} {R : Visit → Prop} {files files' : List SourceFile}
  {code : Text} {n : Nat} {place : Place} {o : Output}

/-- The byte `n` of the text is part of what a macro gives that is used at the place. -/
def GivenByMacro (R : Visit → Prop) (files : List SourceFile) (code : Text) (n : Nat)
    (place : Place) : Prop :=
  ∃ file v word before output, files[place.file]? = some file ∧ R v ∧
    v.entry = ⟨place.file, file⟩ ∧ v.Replaces place.offset word before output ∧
    before ++ output <+: code ∧ Text.size before ≤ n ∧ n < Text.size (before ++ output)

theorem GivenByMacro.mono (h : GivenByMacro R files code n place) (hf : files <+: files') :
    GivenByMacro R files' code n place := by
  obtain ⟨file, v, word, before, output, hfile, h⟩ := h
  exact ⟨file, v, word, before, output, getElem?_of_isPrefix hf hfile, h⟩

theorem GivenByMacro.append (h : GivenByMacro R files code n place) (t : Text) :
    GivenByMacro R files (code ++ t) n place := by
  obtain ⟨file, v, word, before, output, hfile, hv, he, hr, hcode, hn⟩ := h
  exact ⟨file, v, word, before, output, hfile, hv, he, hr,
    hcode.trans (List.prefix_append _ _), hn⟩

/-- The segments are in order, and every character of the output that is no copy is given by
a macro.  Line feeds are left out: one is put out behind an included file. -/
structure InsertsTraced (R : Visit → Prop) (files : List SourceFile) (o : Output) : Prop where
  wellFormed : o.WellFormed
  given : ∀ x c y, o.code = x ++ c :: y → c ≠ '\n' → ∃ place,
    o.place? (Text.size x) = some place ∧
      (place.isCopy = false → GivenByMacro R files o.code (Text.size x) place)

theorem InsertsTraced.mono (h : InsertsTraced R files o) (hf : files <+: files') :
    InsertsTraced R files' o := by
  refine ⟨h.wellFormed, fun x c y hcode hc => ?_⟩
  obtain ⟨place, hplace, hgiven⟩ := h.given x c y hcode hc
  exact ⟨place, hplace, fun hcopy => (hgiven hcopy).mono hf⟩

/-- It is enough to look at the characters of the chunks that are added. -/
theorem InsertsTraced.foldl_push {cs : List Chunk} (h : InsertsTraced R files o)
    (hnew : ∀ x c y, cs.flatMap Chunk.text = x ++ c :: y → c ≠ '\n' → ∃ place,
      (cs.foldl Output.push o).place? (Text.size o.code + Text.size x) = some place ∧
        (place.isCopy = false → GivenByMacro R files (o.code ++ cs.flatMap Chunk.text)
          (Text.size o.code + Text.size x) place)) :
    InsertsTraced R files (cs.foldl Output.push o) := by
  refine ⟨h.wellFormed.foldl_push cs, fun x c y hcode hc => ?_⟩
  rw [Output.code_foldl_push] at hcode ⊢
  rcases Text.cases_of_append_eq hcode with ⟨x', rfl, hcs⟩ | ⟨z, ho, rfl⟩
  · rw [Text.size_append]
    exact hnew x' c y hcs hc
  · -- The character was there before.
    obtain ⟨place, hplace, hgiven⟩ := h.given x c z ho hc
    have hlt : Text.size x < Text.size o.code := Text.size_lt_of_eq_append ho
    exact ⟨place, (Output.place?_foldl_of_lt hlt).trans hplace,
      fun hcopy => (hgiven hcopy).append _⟩

/-- **The characters of a region are copies or given by macros.** -/
theorem given_of_region {v : Visit} {offset : Nat} {text : Text} {pieces : List Macro.Piece}
    (hv : R v) (hw : v.WellPlaced) (hi : v.item = .region offset text)
    (ha : v.state.groups.isActive = true) (hp : v.state.macros.substitute text = .ok pieces)
    (ho : v.state.output.WellFormed) {x y : Text} {c : Char}
    (hflat : flatten pieces = x ++ c :: y) :
    ∃ place, ((chunksOf v.entry.index offset pieces).foldl Output.push v.state.output).place?
        (Text.size v.state.output.code + Text.size x) = some place ∧
      (place.isCopy = false → GivenByMacro R v.state.files
        (v.state.output.code ++ flatten pieces)
        (Text.size v.state.output.code + Text.size x) place) := by
  obtain ⟨a, q, b, u, r, rfl, hq, rfl, rfl⟩ := Macro.exists_of_flatten_eq hflat
  have hu : Text.size u < Text.size q.output := Text.size_lt_of_eq_append hq
  refine ⟨_, place?_pieces ho _ offset a b hu, fun hcopy => ?_⟩
  cases q with
  | kept source => cases hcopy
  | replaced source output =>
    obtain ⟨word, before, -, hreplaces, hgiven⟩ := Visit.exists_replaces hi ha hp hu
    exact ⟨v.entry.file, v, word, before, output, hw.registered, hv, rfl, hreplaces, hgiven⟩

/-- **Only a macro gives what is no copy**, line feeds apart. -/
theorem insertsTraced_of_run {name : Option String} {text : Text} {t : Preprocessed}
    (h : (run load name text).result = .ok t) :
    InsertsTraced (Visited load name text) t.files t.toOutput := by
  refine invariant_of_run (P := InsertsTraced (Visited load name text)) ?_ ?_ ?_ ?_ h
  · refine ⟨Output.WellFormed.empty, ?_⟩
    intro x c y hcode
    exact absurd hcode.symm (by simp)
  · intro v offset region pieces hv hP hi ha hp
    apply hP.foldl_push
    intro x c y hflat hc
    rw [flatMap_text_chunksOf] at hflat ⊢
    exact given_of_region hv hv.wellPlaced hi ha hp hP.wellFormed hflat
  · intro files file o hP
    exact hP.mono (List.prefix_append _ _)
  · intro v offset command entry files o hv hP hf hi hl
    apply hP.foldl_push
    -- The only character is the line feed.
    intro x c y hfeed hc
    change ['\n'] = x ++ c :: y at hfeed
    obtain rfl : c = '\n' := by
      have hmem : c ∈ ['\n'] := by
        rw [hfeed]
        exact List.mem_append_right _ (List.mem_cons_self ..)
      exact List.mem_singleton.mp hmem
    exact absurd rfl hc

/-! ### Stretches between two braces -/

section Braces

variable {name : Option String} {text : Text} {t : Preprocessed} {s : Span} {a b : Place}

/-- A stretch that does not start and end with copies of one file is not looked up. -/
theorem writtenText?_eq_none (ha : t.place? s.start = some a) (hb : t.place? (s.stop - 1) = some b)
    (hne : ¬(a.isCopy = true ∧ b.isCopy = true ∧ a.file = b.file)) : t.writtenText? s = none := by
  unfold writtenText?
  split
  · rfl
  · rw [ha, hb]
    simp only [Option.bind_eq_bind, Option.bind_some, Option.bind_eq_none_iff]
    intro file hfile
    rw [if_neg]
    intro hall
    simp only [Bool.and_eq_true, beq_iff_eq, decide_eq_true_eq] at hall
    exact hne ⟨hall.1.1.1, hall.1.1.2, hall.1.2⟩

/-- A stretch that starts and ends with copies from one file is shown as it stands in the
file, and it starts and ends with the same characters, if these take up one byte and are no
spaces. -/
theorem sourceText_of_copies (h : (run load name text).result = .ok t) {c d : Char}
    (hc : c.utf8Size = 1) (hd : d.utf8Size = 1) (hc' : c.val.toUInt8 ≠ 32)
    (hd' : d.val.toUInt8 ≠ 32) (hse : s.start < s.stop) (he : s.stop ≤ Text.size t.code)
    (hfirst : (Text.bytes t.code)[s.start]? = some c.val.toUInt8)
    (hlast : (Text.bytes t.code)[s.stop - 1]? = some d.val.toUInt8)
    (ha : t.place? s.start = some a) (hb : t.place? (s.stop - 1) = some b)
    (hca : a.isCopy = true) (hcb : b.isCopy = true) (hf : a.file = b.file) :
    (t.sourceText s).head? = some c ∧ (t.sourceText s).getLast? = some d ∧ ∃ file,
      t.files[a.file]? = some file ∧
        Text.slice? a.offset (b.offset + 1) file.text = some (t.sourceText s) := by
  have hordered := ordered_of_run h
  obtain ⟨file, hfile, hslice⟩ := hordered.writtenText?_eq hse he ha hb hca hcb hf
  have hle : a.offset ≤ b.offset := hordered.offset_le (by omega) (by omega) ha hb hf
  -- Both characters stand in the file, and so does a text from the one to the other.
  have hfirst' := hordered.getElem?_bytes (by omega) ha hca hfile hfirst hc'
  have hlast' := hordered.getElem?_bytes (by omega) hb hcb (hf ▸ hfile) hlast hd'
  obtain ⟨u, hstands, hoffset⟩ := Text.exists_standsAt_of_asciiAt
    ⟨_, hfirst', Text.toUInt8_lt hc⟩ ⟨_, hlast', Text.toUInt8_lt hd⟩ hle
  have hu := Text.slice?_eq_some_iff.mpr ⟨hstands, hoffset⟩
  have hsource : t.sourceText s = u := by
    show (t.writtenText? s).getD _ = u
    rw [hslice, hu, Option.getD_some]
  have hne : u ≠ [] := by
    rintro rfl
    rw [Text.size_nil] at hoffset
    omega
  have hend : a.offset + Text.size u - 1 = b.offset := by omega
  rw [← hend] at hlast'
  obtain ⟨hhead, htail⟩ := hstands.ends hne hc hd hfirst' hlast'
  rw [hsource]
  exact ⟨hhead, htail, file, hfile, hu⟩

/-- **What is shown of a stretch between two braces.**  If both are copies from one file, it
is the text of the file from the one to the other, and otherwise what stands in the output.
It starts and ends with the braces.  A brace that is no copy is given by a macro. -/
theorem sourceText_of_braces (h : (run load name text).result = .ok t) {x w z : Text}
    (hcode : t.code = x ++ '\x7b' :: (w ++ '\x7d' :: z))
    (hs : s = ⟨Text.size x, Text.size x + (Text.size w + 2)⟩) :
    (t.sourceText s).head? = some '\x7b' ∧ (t.sourceText s).getLast? = some '\x7d' ∧
    ∃ a b, t.place? s.start = some a ∧ t.place? (s.stop - 1) = some b ∧
      (a.isCopy = false → GivenByMacro (Visited load name text) t.files t.code s.start a) ∧
      (b.isCopy = false →
        GivenByMacro (Visited load name text) t.files t.code (s.stop - 1) b) ∧
      (a.isCopy = true ∧ b.isCopy = true ∧ a.file = b.file → ∃ file,
        t.files[a.file]? = some file ∧
          Text.slice? a.offset (b.offset + 1) file.text = some (t.sourceText s)) ∧
      (¬(a.isCopy = true ∧ b.isCopy = true ∧ a.file = b.file) →
        Text.slice? s.start s.stop t.code = some (t.sourceText s)) := by
  have hleft : '\x7b'.utf8Size = 1 := by decide
  have hright : '\x7d'.utf8Size = 1 := by decide
  have hstart : s.start = Text.size x := by rw [hs]
  have hstop : s.stop = Text.size x + (Text.size w + 2) := by rw [hs]
  -- The second brace stands behind the first one and what is between them.
  have hcode' : t.code = (x ++ '\x7b' :: w) ++ '\x7d' :: z := by
    rw [hcode]
    simp
  have hlast : s.stop - 1 = Text.size (x ++ '\x7b' :: w) := by
    rw [hstop, Text.size_append, Text.size_cons, hleft]
    omega
  obtain ⟨a, ha, hgiven⟩ := (insertsTraced_of_run h).given _ _ _ hcode (by decide)
  obtain ⟨b, hb, hgiven'⟩ := (insertsTraced_of_run h).given _ _ _ hcode' (by decide)
  rw [← hstart] at ha hgiven
  rw [← hlast] at hb hgiven'
  by_cases hcopies : a.isCopy = true ∧ b.isCopy = true ∧ a.file = b.file
  · have hsize : Text.size t.code = s.stop + Text.size z := by
      rw [hcode', Text.size_append, ← hlast, Text.size_cons, hright]
      omega
    have hbyte : (Text.bytes t.code)[s.start]? = some '\x7b'.val.toUInt8 := by
      rw [hstart, hcode]
      exact Text.getElem?_bytes_append hleft ..
    have hbyte' : (Text.bytes t.code)[s.stop - 1]? = some '\x7d'.val.toUInt8 := by
      rw [hlast, hcode']
      exact Text.getElem?_bytes_append hright ..
    obtain ⟨hca, hcb, hf⟩ := hcopies
    obtain ⟨hhead, htail, hfile⟩ := sourceText_of_copies h hleft hright (by decide) (by decide)
      (by omega) (by omega) hbyte hbyte' ha hb hca hcb hf
    exact ⟨hhead, htail, a, b, ha, hb, hgiven, hgiven', fun _ => hfile,
      fun hne => absurd ⟨hca, hcb, hf⟩ hne⟩
  · have hslice : Text.slice? s.start s.stop t.code = some ('\x7b' :: (w ++ ['\x7d'])) := by
      rw [Text.slice?_eq_some_iff]
      refine ⟨⟨x, z, ?_, hstart.symm⟩, ?_⟩
      · rw [hcode]
        simp
      · rw [hstart, hstop, Text.size_cons, Text.size_append, Text.size_cons, Text.size_nil, hleft,
          hright]
        omega
    have hsource : t.sourceText s = '\x7b' :: (w ++ ['\x7d']) := by
      rw [sourceText, writtenText?_eq_none ha hb hcopies, Option.getD_none, Preprocessed.text,
        hslice, Option.getD_some]
    rw [hsource]
    refine ⟨rfl, ?_, a, b, ha, hb, hgiven, hgiven', fun h => absurd h hcopies, fun _ => hslice⟩
    rw [← List.cons_append, List.getLast?_concat]

end Braces

end Preprocessed

/-! ### Tokens inside of a span -/

/-- The span is not empty and lies inside of another one. -/
def Span.holds (s t : Span) : Bool :=
  decide (s.start ≤ t.start) && decide (t.start < t.stop) && decide (t.stop ≤ s.stop)

theorem Span.holds_iff {s t : Span} :
    s.holds t = true ↔ s.start ≤ t.start ∧ t.start < t.stop ∧ t.stop ≤ s.stop := by
  simp [holds, and_assoc]

/-- Tokens in front of a span and behind it are not inside of it. -/
theorem filter_holds_eq {s : Span} {front body rest : List Lexeme}
    (hfront : ∀ x ∈ front, x.span.stop ≤ s.start) (hbody : ∀ x ∈ body, s.holds x.span = true)
    (hrest : ∀ x ∈ rest, s.stop ≤ x.span.start) :
    (front ++ (body ++ rest)).filter (fun x => s.holds x.span) = body := by
  have hfront' : front.filter (fun x => s.holds x.span) = [] := by
    rw [List.filter_eq_nil_iff]
    intro x hx hholds
    have := hfront x hx
    rw [Span.holds_iff] at hholds
    omega
  have hrest' : rest.filter (fun x => s.holds x.span) = [] := by
    rw [List.filter_eq_nil_iff]
    intro x hx hholds
    have := hrest x hx
    rw [Span.holds_iff] at hholds
    omega
  rw [List.filter_append, List.filter_append, hfront', hrest', List.filter_eq_self.mpr hbody,
    List.nil_append, List.append_nil]

namespace Token

variable {c : Cut} {as bs cs ds : List Cut} {t : Text} {o : Nat} {x : Lexeme}

theorem stop_le_of_mem_lexemes (h : x ∈ lexemes o cs) :
    x.span.stop ≤ o + Text.size (raw cs) := by
  obtain ⟨a, b, hab⟩ := List.append_of_mem h
  obtain ⟨cs₁, c, cs₂, rfl, -, rfl⟩ := exists_of_lexemes_eq hab
  simp only [raw_append, raw_cons, Text.size_append]
  omega

/-- The tokens of cuts lie between the start of the first one and the end of the last. -/
theorem Reading.holds_of_mem (h : Reading (c :: cs) t) (hx : x ∈ lexemes o (c :: cs)) :
    (Decl.spanOf (lexemes o (c :: cs))).holds x.span = true := by
  have hstop := stop_le_of_mem_lexemes hx
  obtain ⟨a, b, hab⟩ := List.append_of_mem hx
  obtain ⟨cs₁, d, cs₂, hcs, -, rfl⟩ := exists_of_lexemes_eq hab
  have hpos : 0 < Text.size d.text := by
    rw [hcs, reading_append] at h
    exact Text.size_pos h.2.1.text_ne_nil
  have hstart : Text.size c.gap ≤ Text.size (raw cs₁) + Text.size d.gap := by
    cases cs₁ with
    | nil =>
      obtain ⟨rfl, -⟩ := List.cons.inj hcs
      exact Nat.le_add_left ..
    | cons e cs₁ =>
      obtain ⟨rfl, -⟩ := List.cons.inj hcs
      rw [raw_cons, Text.size_append]
      omega
  rw [spanOf_lexemes, Span.holds_iff]
  simp only [raw_cons, written_cons, Text.size_append] at hstop ⊢
  omega

/-- **The tokens inside of the span of some tokens are these.** -/
theorem filter_holds_spanOf {code : Text} (h : Reading (as ++ (bs ++ ds)) t)
    (hcode : code = raw (as ++ (bs ++ ds)) ++ t) (hbs : bs ≠ []) {body : List Lexeme}
    (hbody : body = lexemes (Text.size (raw as)) bs) :
    (lexemes 0 (as ++ (bs ++ ds)) ++ [endMark code]).filter
      (fun x => (Decl.spanOf body).holds x.span) = body := by
  obtain ⟨c, bs, rfl⟩ := List.exists_cons_of_ne_nil hbs
  subst hbody
  have hspan := spanOf_lexemes (Text.size (raw as)) c bs
  have hread := (reading_append.mp (reading_append.mp h).2).1
  rw [lexemes_append, lexemes_append, Nat.zero_add, List.append_assoc, List.append_assoc]
  refine filter_holds_eq (fun x hx => ?_) (fun x hx => hread.holds_of_mem hx) fun x hx => ?_
  · have := stop_le_of_mem_lexemes hx
    rw [hspan]
    show x.span.stop ≤ Text.size (raw as) + Text.size c.gap
    omega
  · rw [hspan]
    show Text.size (raw as) + Text.size c.gap + Text.size (written (c :: bs)) ≤ x.span.start
    rcases List.mem_append.mp hx with hx | hx
    · have := le_start_of_mem_lexemes hx
      simp only [raw_cons, written_cons, Text.size_append] at this ⊢
      omega
    · rw [List.mem_singleton.mp hx, hcode]
      simp only [endMark, raw_append, raw_cons, written_cons, Text.size_append]
      omega

/-- A symbol that is spelled in one way only is read from that. -/
theorem Cut.Reads.text_of_symbol {s : Symbol} {k : Char} (h : c.Reads t)
    (hs : c.token = .symbol s) (hk : symbols.all (fun p => p.2 != s || p.1 == [k]) = true) :
    c.text = [k] := by
  have hread := h.reads
  rw [hs] at hread
  obtain ⟨-, s', hmem, hs'⟩ := exists_of_symbol? (symbol?_of_first? hread)
  cases hs'
  simpa using List.all_eq_true.mp hk _ hmem

end Token

/-! ### Braces among the tokens -/

namespace Decl

open PixelWrap.Decl.Parser Grammar Token

/-- The tokens are a bracket, the one that closes it, and what stands in between: there are
equally many brackets of both kinds, and fewer closing ones in each front that is not empty
and stops short of the last bracket. -/
structure Encloses (opening close : Symbol) (ks : List Token) : Prop where
  head : ks.head? = some (.symbol opening)
  last : ks.getLast? = some (.symbol close)
  count_eq : ks.count (.symbol close) = ks.count (.symbol opening)
  count_lt : ∀ front, front <+: ks → front ≠ [] → front ≠ ks →
    front.count (.symbol close) < front.count (.symbol opening)

/-- In front of the tokens `depth` brackets are open and behind them none, and at no place
more are closed than are open. -/
structure Levels (opening close : Token) (depth : Nat) (ks : List Token) : Prop where
  count_eq : ks.count close = ks.count opening + depth
  count_le : ∀ front, front <+: ks → front.count close ≤ front.count opening + depth

section Brackets

variable {opening close : Symbol} {ts rest : List Lexeme} {span : Span} {depth : Nat}

theorem levels_nil (opening close : Token) : Levels opening close 0 [] := by
  refine ⟨rfl, fun front hfront => ?_⟩
  rw [List.prefix_nil.mp hfront]
  exact Nat.zero_le _

/-- One more token in front changes the depth as it counts. -/
theorem Levels.cons {o c k : Token} {d : Nat} {ks : List Token} (h : Levels o c d ks)
    (hk : d + [k].count c = depth + [k].count o) : Levels o c depth (k :: ks) := by
  have hcons : ∀ (t : Token) (us : List Token), (k :: us).count t = [k].count t + us.count t := by
    intro t us
    rw [← List.singleton_append, List.count_append]
  refine ⟨?_, fun front hfront => ?_⟩
  · have := h.count_eq
    rw [hcons c ks, hcons o ks]
    omega
  · rcases List.prefix_cons_iff.mp hfront with rfl | ⟨front, rfl, hrest⟩
    · exact Nat.zero_le _
    · have := h.count_le front hrest
      rw [hcons c front, hcons o front]
      omega

/-- In front of the bracket that closes the outermost one, all others are closed. -/
theorem exists_of_closing_levels (hne : Token.symbol opening ≠ .symbol close)
    (h : closing? opening close depth ts = some (span, rest)) :
    ∃ inner last, ts = inner ++ last :: rest ∧ span = last.span ∧ last.token = .symbol close ∧
      Levels (.symbol opening) (.symbol close) depth (kinds inner) := by
  fun_induction closing? opening close depth ts with
  | case1 => cases h
  | case2 depth t ts ho ih =>
    obtain ⟨inner, last, rfl, hs, hl, hlevels⟩ := ih h
    refine ⟨t :: inner, last, rfl, hs, hl, hlevels.cons ?_⟩
    rw [ho, List.count_singleton_self, List.count_singleton, if_neg (by simpa using hne)]
  | case3 t ts _ hc =>
    cases h
    exact ⟨[], t, rfl, rfl, hc, levels_nil _ _⟩
  | case4 t ts _ hc depth ih =>
    obtain ⟨inner, last, rfl, hs, hl, hlevels⟩ := ih h
    refine ⟨t :: inner, last, rfl, hs, hl, hlevels.cons ?_⟩
    rw [hc, List.count_singleton_self, List.count_singleton, if_neg (by simpa using hne.symm)]
  | case5 => cases h
  | case6 depth t ts ho hc _ ih =>
    obtain ⟨inner, last, rfl, hs, hl, hlevels⟩ := ih h
    refine ⟨t :: inner, last, rfl, hs, hl, hlevels.cons ?_⟩
    rw [List.count_singleton, List.count_singleton, if_neg (by simpa using hc),
      if_neg (by simpa using ho)]

/-- **Brackets that are read match.** -/
theorem exists_of_balanced_encloses (hne : Token.symbol opening ≠ .symbol close)
    (h : balanced opening close ts = .ok (span, rest)) :
    ∃ ws, ts = ws ++ rest ∧ span = spanOf ws ∧ Encloses opening close (kinds ws) := by
  unfold balanced at h
  split at h
  · cases h
  · next t r =>
    split at h
    · next ht =>
      split at h
      · next s r' hc =>
        cases h
        obtain ⟨inner, last, rfl, rfl, hlast, hlevels⟩ := exists_of_closing_levels hne hc
        refine ⟨t :: (inner ++ [last]), by simp, by rw [spanOf_concat], ?_, ?_, ?_, ?_⟩
        · simp [ht]
        · simp [hlast, List.getLast?_cons]
        · simp [ht, hlast, hlevels.count_eq, List.count_cons_of_ne hne,
            List.count_cons_of_ne hne.symm]
        · intro front hfront hnil hproper
          have hks : kinds (t :: (inner ++ [last])) =
              .symbol opening :: (kinds inner ++ [.symbol close]) := by
            simp [ht, hlast]
          rw [hks] at hfront hproper
          rcases List.prefix_cons_iff.mp hfront with rfl | ⟨front, rfl, hrest⟩
          · exact absurd rfl hnil
          rcases List.prefix_concat_iff.mp hrest with rfl | hrest
          · exact absurd rfl hproper
          · have := hlevels.count_le front hrest
            rw [List.count_cons_self, List.count_cons_of_ne hne]
            omega
      · cases h
    · cases h

end Brackets

/-! ### Bodies of functions -/

variable {p : Preprocessed} {ts : List Lexeme} {ds : List Decl} {f : Function}

theorem keeps_signature (p : Preprocessed) : Keeps (signature p) :=
  (shrinks_balanced _ _).keeps.many.bind fun _ => keeps_storageClass.many.bind fun _ =>
    (shrinks_typeName p).keeps.bind fun _ => shrinks_name.keeps.bind fun _ =>
      (keeps_params p).bind fun _ => keeps_semantic.bind fun _ => keeps_pure _

/-- The body of a function is a stretch of the tokens in matching braces. -/
theorem exists_body_of_mem_functions (hparse : parse p ts = .ok ds) (hf : f ∈ functions ds) :
    ∃ front body rest, ts = front ++ (body ++ rest) ∧ f.span = spanOf body ∧
      f.body = p.sourceText f.span ∧ Encloses .leftBrace .rightBrace (kinds body) := by
  obtain ⟨front, us, rest, rfl, hdecl⟩ := exists_declaration_of_mem_functions hparse hf
  obtain ⟨s, r, hs, h⟩ := bind_eq_ok.mp (function_of_declaration hdecl)
  obtain ⟨before, rfl⟩ := keeps_signature p _ _ _ hs
  rcases or_of_orElse h with h | h
  · obtain ⟨span, _, hspan, h⟩ := bind_eq_ok.mp h
    cases h
    obtain ⟨body, rfl, rfl, hbody⟩ := exists_of_balanced_encloses (by decide) hspan
    exact ⟨front ++ before, body, rest, by simp, rfl, rfl, hbody⟩
  · obtain ⟨_, _, -, h⟩ := bind_eq_ok.mp h
    cases h

/-- **The body of a function takes up the output from the one brace to the other.** -/
theorem exists_braces {front body rest : List Lexeme}
    (hlex : lex p = .ok (front ++ (body ++ rest)))
    (hbody : Encloses .leftBrace .rightBrace (kinds body)) :
    (front ++ (body ++ rest)).filter (fun x => (spanOf body).holds x.span) = body ∧
      ∃ x w z, p.code = x ++ '\x7b' :: (w ++ '\x7d' :: z) ∧
        spanOf body = ⟨Text.size x, Text.size x + (Text.size w + 2)⟩ := by
  obtain ⟨cs, g, hcode, hread, hts⟩ := exists_reading_of_lex hlex
  have hhead := hbody.head
  have hlast := hbody.last
  have hne : body ≠ [] := by
    rintro rfl
    cases hhead
  -- The mark at the end is not the brace.
  have hmark : ∀ t ∈ body.getLast?, t ≠ endMark p.code := by
    rintro t ht rfl
    rw [kinds, List.getLast?_map, ht] at hlast
    cases hlast
  obtain ⟨as, bs, ds, rfl, hbs, -⟩ := exists_of_lexemes_concat_eq hts.symm hmark hne
  have hbs' : bs ≠ [] := by
    rintro rfl
    exact hne hbs
  rw [hts]
  refine ⟨filter_holds_spanOf hread hcode hbs' hbs, ?_⟩
  have hkinds : kinds body = bs.map Cut.token := by
    rw [hbs]
    exact map_token_lexemes _
  rw [hkinds] at hhead hlast
  obtain ⟨c, bs, rfl⟩ := List.exists_cons_of_ne_nil hbs'
  -- One token is not both braces.
  rcases List.eq_nil_or_concat bs with rfl | ⟨bs, d, rfl⟩
  · rw [List.map_singleton, List.getLast?_singleton] at hlast
    cases hhead.symm.trans hlast
  have hbody := (reading_append.mp (reading_append.mp hread).2).1
  have hc : c.text = ['\x7b'] := hbody.1.text_of_symbol (Option.some.inj hhead) (by decide)
  have hd : d.text = ['\x7d'] := by
    rw [List.concat_eq_append, ← List.cons_append, reading_append] at hbody
    refine hbody.2.1.text_of_symbol (s := .rightBrace) ?_ (by decide)
    simpa [List.getLast?_cons] using hlast
  refine ⟨raw as ++ c.gap, raw bs ++ d.gap, raw ds ++ g, ?_, ?_⟩
  · rw [hcode]
    simp [hc, hd]
  · rw [hbs, spanOf_lexemes]
    have hleft : '\x7b'.utf8Size = 1 := by decide
    have hright : '\x7d'.utf8Size = 1 := by decide
    simp only [List.concat_eq_append, written_cons, raw_append, raw_cons, raw_nil, hc, hd,
      Text.size_append, Text.size_cons, Text.size_nil, hleft, hright, Span.mk.injEq, true_and]
    omega

/-- **The body of a function is exactly what its braces enclose.**  The tokens inside of its
span match.  Its text starts with the one brace and ends with the other.  It is the text of a
file from the one to the other if both are copies from this file; and otherwise it is what
stands in the output.  An outer brace that is no copy is given by a macro. -/
theorem body_exact (load : String → Option Text) (name : Option String) (text : Text)
    {p : Preprocessed} (hrun : (Preprocessed.run load name text).result = .ok p)
    {ts : List Lexeme} (hlex : lex p = .ok ts) {ds : List Decl} (hparse : parse p ts = .ok ds)
    {f : Function} (hf : f ∈ functions ds) :
    Encloses .leftBrace .rightBrace (kinds (ts.filter fun x => f.span.holds x.span)) ∧
    f.body.head? = some '\x7b' ∧ f.body.getLast? = some '\x7d' ∧
    ∃ a b, p.place? f.span.start = some a ∧ p.place? (f.span.stop - 1) = some b ∧
      (a.isCopy = false → Preprocessed.GivenByMacro (Preprocessed.Visited load name text)
        p.files p.code f.span.start a) ∧
      (b.isCopy = false → Preprocessed.GivenByMacro (Preprocessed.Visited load name text)
        p.files p.code (f.span.stop - 1) b) ∧
      (a.isCopy = true ∧ b.isCopy = true ∧ a.file = b.file → ∃ file,
        p.files[a.file]? = some file ∧
          Text.slice? a.offset (b.offset + 1) file.text = some f.body) ∧
      (¬(a.isCopy = true ∧ b.isCopy = true ∧ a.file = b.file) →
        Text.slice? f.span.start f.span.stop p.code = some f.body) := by
  obtain ⟨front, body, rest, rfl, hspan, hbody, henc⟩ := exists_body_of_mem_functions hparse hf
  obtain ⟨hfilter, x, w, z, hcode, hbraces⟩ := exists_braces hlex henc
  rw [← hspan] at hfilter hbraces
  rw [hfilter, hbody]
  exact ⟨henc, Preprocessed.sourceText_of_braces hrun hcode hbraces⟩

/-- A function whose first brace is what a macro gives. -/
def openSource : Text := "#define OPEN \x7b\nfloat f() OPEN return 1; \x7d\n".toList

/-- The function as it is read: its body is the text of the output. -/
def openFunction : Function :=
  { signature := ⟨"f", ⟨some "f", 2, 7⟩, ⟨"float".toList, false⟩, [], none, []⟩
    body := "\x7b return 1; \x7d".toList
    span := ⟨10, 23⟩ }

theorem decls?_openSource :
    decls? (fun _ => none) "f" openSource 12 = some [.function openFunction] := by
  cbv

theorem body_exact_open :
    ∃ p ts, (Preprocessed.run (fun _ => none) (some "f") openSource).result = .ok p ∧
      lex p = .ok ts ∧ parse p ts = .ok [.function openFunction] ∧
      Encloses .leftBrace .rightBrace
        (kinds (ts.filter fun x => openFunction.span.holds x.span)) ∧
      Preprocessed.GivenByMacro (Preprocessed.Visited (fun _ => none) (some "f") openSource)
        p.files p.code 10 ⟨0, 25, false⟩ ∧
      Text.slice? 10 23 p.code = some openFunction.body := by
  obtain ⟨p, ts, hrun, hlex, hparse⟩ := exists_of_decls? 12 decls?_openSource
  have hplace : (Preprocessed.run (fun _ => none) (some "f") openSource).result.toOption.bind
      (fun p => p.place? 10) = some ⟨0, 25, false⟩ := by
    cbv
  rw [hrun] at hplace
  obtain ⟨henc, -, -, a, b, ha, -, hgiven, -, -, hslice⟩ :=
    body_exact (fun _ => none) (some "f") openSource hrun hlex hparse
      (List.mem_singleton_self openFunction)
  obtain rfl : a = ⟨0, 25, false⟩ := Option.some.inj (ha.symm.trans hplace)
  exact ⟨p, ts, hrun, hlex, hparse, henc, hgiven rfl, hslice fun h => Bool.noConfusion h.1⟩

end Decl

end PixelWrap
