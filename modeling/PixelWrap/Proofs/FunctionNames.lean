import PixelWrap.Proofs.Inclusion
import PixelWrap.Proofs.Partition
import PixelWrap.Proofs.Rereading
import PixelWrap.Proofs.Standalone
import PixelWrap.Proofs.Tiling
import PixelWrap.Proofs.Words

/-!
# Where the names of functions stand

The location of a function is that of the first byte of its name.  A name that is read from
the output is a word of the output, but it need not be a word of a source: it may come from
a macro, or be put together from what a macro gives and the text behind it.  In both cases
its first byte leads back to the name of the macro.  And if the first byte is a copy, then so
are all others, because text is put out in pieces between words.

## Main definitions

* `Preprocessed.Visit.Replaces`: a use of a macro that a run replaces.
* `Preprocessed.WordsTraced`: every word of the output leads back to a word of a file.
* `Decl.NameIs`: the token that is the name of a function.

## Main results

* `Preprocessed.Visits.endsInName_output`: the output does not end in a name when an item is
  run.
* `Preprocessed.wordsTraced_of_run`: **every word of the output leads back to a word of a
  file**, the same one or the name of a macro.
* `Decl.signature_location`: **the location of a function is that of a whole word.**
-/

namespace PixelWrap

open Macro (startsInName endsInName sources flatten)

/-! ### Chunks one after the other -/

namespace Output

variable {o : Output} {cs : List Chunk}

theorem code_foldl_push : (cs.foldl Output.push o).code = o.code ++ cs.flatMap Chunk.text :=
  Preprocessed.State.code_emit { output := o } cs

theorem WellFormed.foldl_push (h : o.WellFormed) (cs : List Chunk) :
    (cs.foldl Output.push o).WellFormed := by
  induction cs generalizing o with
  | nil => exact h
  | cons c cs ih => exact ih (h.push c)

/-- What has been put out before keeps its place. -/
theorem place?_foldl_of_lt {p : Nat} (hp : p < Text.size o.code) :
    (cs.foldl Output.push o).place? p = o.place? p := by
  induction cs generalizing o with
  | nil => rfl
  | cons c cs ih =>
    have hp' : p < Text.size (o.push c).code := by
      rw [code_push, Text.size_append]
      omega
    rw [List.foldl_cons, ih hp', place?_push_of_lt hp]

/-- **The bytes of each chunk lead to the places that it names.** -/
theorem WellFormed.place?_foldl (h : o.WellFormed) {a b : List Chunk} {c : Chunk} {d : Nat}
    (hd : d < Text.size c.text) :
    ((a ++ c :: b).foldl Output.push o).place?
        (Text.size o.code + Text.size (a.flatMap Chunk.text) + d) = some (c.origin.at d) := by
  have hfront := h.foldl_push a
  have hsize : Text.size (a.foldl Output.push o).code =
      Text.size o.code + Text.size (a.flatMap Chunk.text) := by
    rw [code_foldl_push, Text.size_append]
  have hlt : Text.size (a.foldl Output.push o).code + d <
      Text.size ((a.foldl Output.push o).push c).code := by
    rw [code_push, Text.size_append]
    omega
  rw [List.foldl_append, List.foldl_cons, ← hsize, place?_foldl_of_lt hlt,
    place?_push_of_le hfront (Nat.le_add_right ..) hlt, Nat.add_sub_cancel_left]

end Output

namespace Preprocessed

variable {load : String → Option Text} {depth : Nat} {e : Entry} {s s' : State}

theorem chunksOf_append (file offset : Nat) (a : List Macro.Piece) (q : Macro.Piece)
    (b : List Macro.Piece) :
    chunksOf file offset (a ++ q :: b) =
      chunksOf file offset a ++ chunkOf file (offset + Text.size (sources a)) q ::
        chunksOf file (offset + Text.size (sources a) + Text.size q.source) b := by
  induction a generalizing offset with
  | nil => cases q <;> rfl
  | cons p a ih =>
    rw [Macro.sources_cons, Text.size_append, ← Nat.add_assoc]
    cases p with
    | kept source => exact congrArg (_ :: ·) (ih _)
    | replaced source output => exact congrArg (_ :: ·) (ih _)

/-- **The bytes that a piece gives lead to the piece.** -/
theorem place?_pieces {o : Output} (ho : o.WellFormed) (file offset : Nat) (a b : List Macro.Piece)
    {q : Macro.Piece} {u : Text} (hu : Text.size u < Text.size q.output) :
    ((chunksOf file offset (a ++ q :: b)).foldl Output.push o).place?
        (Text.size o.code + Text.size (flatten a ++ u)) =
      some ((chunkOf file (offset + Text.size (sources a)) q).origin.at (Text.size u)) := by
  have hchunk : (chunkOf file (offset + Text.size (sources a)) q).text = q.output := by
    cases q <;> rfl
  have hplace := ho.place?_foldl (a := chunksOf file offset a)
    (b := chunksOf file (offset + Text.size (sources a) + Text.size q.source) b)
    (hchunk.symm ▸ hu)
  rwa [flatMap_text_chunksOf, ← chunksOf_append, Nat.add_assoc, ← Text.size_append] at hplace

/-! ### What stands in front of an item -/

/-- **The output does not end in a name when an item is run.**  A region ends with a line
unless it is the last item of its file, and behind an included file a line feed is put out. -/
theorem Visits.endsInName_output {is : List Item} {v : Visit} (h : Visits load depth e s is v)
    (hs : endsInName s.output.code = false)
    (his : ∀ {a b : List Item} {o : Nat} {x : Text}, is = a ++ .region o x :: b → b ≠ [] →
      x ≠ [] ∧ Text.Ended x) :
    endsInName v.state.output.code = false := by
  induction h with
  | here => exact hs
  | @next depth e s s' i is v hstep hv ih =>
    have hne : is ≠ [] := by
      rintro rfl
      cases hv
    refine ih ?_ fun {a _ _ _} hab => his (a := i :: a) (congrArg (i :: ·) hab)
    cases stepped_of_step hstep with
    | quiet _ hout =>
      rw [hout]
      exact hs
    | @stored offset text pieces _ hp =>
      obtain ⟨htext, hended⟩ := his (a := []) rfl hne
      obtain ⟨hflat, hend⟩ := (Macro.scanned_of_scan hp).endsInName_flatten htext hended
      rw [State.code_emit, flatMap_text_chunksOf, Macro.endsInName_append hflat]
      exact hend
    | included =>
      rw [State.code_emit]
      exact Macro.endsInName_concat _ '\n'
  | @inside depth e entry s i is v hl hv ih =>
    refine ih hs fun hab hb => ?_
    obtain ⟨_, _, -, hne, -, -, -, hended⟩ := Item.exists_of_ofText_eq hab
    exact ⟨hne, hended hb⟩

theorem Visited.endsInName_output {name : Option String} {text : Text} {v : Visit}
    (h : Visited load name text v) : endsInName v.state.output.code = false := by
  refine Visits.endsInName_output h rfl fun hab hb => ?_
  obtain ⟨_, _, -, hne, -, -, -, hended⟩ := Item.exists_of_ofText_eq hab
  exact ⟨hne, hended hb⟩

/-! ### Words of the output -/

/-- At the offset of its file the visit replaces a use of the macro that the word names, and
what the macro gives is put out right behind `before`. -/
def Visit.Replaces (v : Visit) (offset : Nat) (word before output : Text) : Prop :=
  ∃ start text a source b, v.item = .region start text ∧ v.state.groups.isActive = true ∧
    v.state.macros.substitute text = .ok (a ++ .replaced source output :: b) ∧
    offset = start + Text.size (sources a) ∧ word <+: source ++ sources b ∧
    v.state.macros.isDefined (String.ofList word) = true ∧
    before = v.state.output.code ++ flatten a

/-- A piece that is replaced is the use of a macro, and the text `u` that it starts with is put
out as a part of what the macro gives. -/
theorem Visit.exists_replaces {v : Visit} {offset : Nat} {text source output u : Text}
    {a b : List Macro.Piece} (hi : v.item = .region offset text)
    (ha : v.state.groups.isActive = true)
    (hp : v.state.macros.substitute text = .ok (a ++ .replaced source output :: b))
    (hu : Text.size u < Text.size output) :
    ∃ word before, Text.WordAt word (Text.size (sources a)) text ∧
      v.Replaces (offset + Text.size (sources a)) word before output ∧
      before ++ output <+:
        v.state.output.code ++ flatten (a ++ .replaced source output :: b) ∧
      Text.size before ≤ Text.size v.state.output.code + Text.size (flatten a ++ u) ∧
      Text.size v.state.output.code + Text.size (flatten a ++ u) <
        Text.size (before ++ output) := by
  obtain ⟨word, hword, hsource, hdef⟩ :=
    (Macro.scanned_of_scan hp).exists_wordAt_of_replaced
  refine ⟨word, v.state.output.code ++ flatten a, hword,
    ⟨offset, text, a, source, b, hi, ha, hp, rfl, hsource, hdef, rfl⟩, ⟨flatten b, ?_⟩, ?_, ?_⟩
  · simp [flatten, Macro.Piece.output]
  · rw [Text.size_append, Text.size_append]
    omega
  · rw [Text.size_append, Text.size_append, Text.size_append]
    omega

/-- A word that stands in the text at `p` leads back to the place: a word stands there in a
file.  It is the same one if the first byte is a copy, and otherwise it is the name of a
macro, and the first byte is part of what the macro gives there. -/
def Traced (R : Visit → Prop) (files : List SourceFile) (code : Text) (p : Nat) (word : Text)
    (place : Place) : Prop :=
  ∃ file w, files[place.file]? = some file ∧ Text.WordAt w place.offset file.text ∧
    (place.isCopy = true → w = word) ∧
    (place.isCopy = false → ∃ v before output, R v ∧ v.entry = ⟨place.file, file⟩ ∧
      v.Replaces place.offset w before output ∧ before ++ output <+: code ∧
      Text.size before ≤ p ∧ p < Text.size (before ++ output))

section Traced

variable {R : Visit → Prop} {files files' : List SourceFile} {code word : Text} {p : Nat}
  {place : Place}

theorem Traced.mono (h : Traced R files code p word place) (hf : files <+: files') :
    Traced R files' code p word place := by
  obtain ⟨file, w, hfile, h⟩ := h
  exact ⟨file, w, getElem?_of_isPrefix hf hfile, h⟩

theorem Traced.append (h : Traced R files code p word place) (t : Text) :
    Traced R files (code ++ t) p word place := by
  obtain ⟨file, w, hfile, hw, hcopy, hins⟩ := h
  refine ⟨file, w, hfile, hw, hcopy, fun hc => ?_⟩
  obtain ⟨v, before, output, hv, he, hr, hcode, hp⟩ := hins hc
  exact ⟨v, before, output, hv, he, hr, hcode.trans (List.prefix_append _ _), hp⟩

/-- The segments are in order, and every word of the output leads back to a word of a
file. -/
structure WordsTraced (R : Visit → Prop) (files : List SourceFile) (o : Output) : Prop where
  wellFormed : o.WellFormed
  traced : ∀ x c y, o.code = x ++ c :: y → isNameStart c = true → endsInName x = false →
    ∃ place, o.place? (Text.size x) = some place ∧
      Traced R files o.code (Text.size x) ((c :: y).takeWhile isNameChar) place

theorem WordsTraced.mono {o : Output} (h : WordsTraced R files o) (hf : files <+: files') :
    WordsTraced R files' o := by
  refine ⟨h.wellFormed, fun x c y hcode hc hx => ?_⟩
  obtain ⟨place, hplace, ht⟩ := h.traced x c y hcode hc hx
  exact ⟨place, hplace, ht.mono hf⟩

/-- **Chunks that start between words keep the words in front of them**, so that it is enough
to look at the words of the chunks. -/
theorem WordsTraced.foldl_push {o : Output} {cs : List Chunk} (h : WordsTraced R files o)
    (hborder : endsInName o.code = false ∨ startsInName (cs.flatMap Chunk.text) = false)
    (hnew : ∀ x c y, cs.flatMap Chunk.text = x ++ c :: y → isNameStart c = true →
      endsInName x = false → ∃ place,
        (cs.foldl Output.push o).place? (Text.size o.code + Text.size x) = some place ∧
          Traced R files (o.code ++ cs.flatMap Chunk.text) (Text.size o.code + Text.size x)
            ((c :: y).takeWhile isNameChar) place) :
    WordsTraced R files (cs.foldl Output.push o) := by
  refine ⟨h.wellFormed.foldl_push cs, fun x c y hcode hc hx => ?_⟩
  rw [Output.code_foldl_push] at hcode ⊢
  rcases Text.cases_of_append_eq hcode with ⟨x', rfl, hcs⟩ | ⟨z, ho, rfl⟩
  · rw [Text.size_append]
    exact hnew x' c y hcs hc (Macro.endsInName_of_append hx)
  · -- The word was there before, and nothing is added to it.
    obtain ⟨place, hplace, ht⟩ := h.traced x c z ho hc hx
    have hlt : Text.size x < Text.size o.code := Text.size_lt_of_eq_append ho
    have hword : (c :: (z ++ cs.flatMap Chunk.text)).takeWhile isNameChar =
        (c :: z).takeWhile isNameChar := by
      rw [← List.cons_append]
      refine takeWhile_append_of_border _ (List.cons_ne_nil c z) ?_
      rw [ho, Macro.endsInName_append (List.cons_ne_nil c z)] at hborder
      exact hborder
    refine ⟨place, (Output.place?_foldl_of_lt hlt).trans hplace, ?_⟩
    rw [hword]
    exact ht.append _

/-- **The words of a region are traced.**  A word that starts with a character that is kept is
a word of the file as far as it goes. -/
theorem traced_of_region {v : Visit} {offset : Nat} {text : Text} {pieces : List Macro.Piece}
    (hv : R v) (hw : v.WellPlaced) (hi : v.item = .region offset text)
    (ha : v.state.groups.isActive = true) (hp : v.state.macros.substitute text = .ok pieces)
    (ho : v.state.output.WellFormed) {x y : Text} {c : Char}
    (hflat : flatten pieces = x ++ c :: y) (hc : isNameStart c = true)
    (hx : endsInName x = false) :
    ∃ place, ((chunksOf v.entry.index offset pieces).foldl Output.push v.state.output).place?
        (Text.size v.state.output.code + Text.size x) = some place ∧
      Traced R v.state.files (v.state.output.code ++ flatten pieces)
        (Text.size v.state.output.code + Text.size x) ((c :: y).takeWhile isNameChar) place := by
  have hscan := Macro.scanned_of_scan hp
  -- Words of the region are words of the file.
  have hfile : ∀ {w : Text} {n : Nat}, Text.WordAt w n text →
      Text.WordAt w (offset + n) v.entry.file.text := by
    intro w n hword
    have hmem := hw.mem
    rw [hi] at hmem
    exact Comment.wordAt_of_blank (Item.wordAt_of_region hmem hword)
  obtain ⟨a, q, b, u, r, rfl, hq, rfl, rfl⟩ := Macro.exists_of_flatten_eq hflat
  have hu : Text.size u < Text.size q.output := Text.size_lt_of_eq_append hq
  refine ⟨_, place?_pieces ho _ offset a b hu, ?_⟩
  cases q with
  | kept source =>
    change source = u ++ c :: r at hq
    subst hq
    obtain ⟨hword, hlong⟩ := hscan.wordAt_of_kept hc (Macro.endsInName_of_append hx)
    refine ⟨v.entry.file, _, hw.registered, ?_, fun _ => hlong.symm, ?_⟩
    · have hword := hfile hword
      rw [← Nat.add_assoc] at hword
      exact hword
    · intro hcopy
      cases hcopy
  | replaced source output =>
    obtain ⟨word, before, hword, hreplaces, hgiven⟩ := Visit.exists_replaces hi ha hp hu
    refine ⟨v.entry.file, word, hw.registered, hfile hword, ?_, fun _ => ?_⟩
    · intro hcopy
      cases hcopy
    · exact ⟨v, before, output, hv, rfl, hreplaces, hgiven⟩

end Traced

/-- **Every word of the output leads back to a word of a file.** -/
theorem wordsTraced_of_run {name : Option String} {text : Text} {t : Preprocessed}
    (h : (run load name text).result = .ok t) :
    WordsTraced (Visited load name text) t.files t.toOutput := by
  refine invariant_of_run (P := WordsTraced (Visited load name text)) ?_ ?_ ?_ ?_ h
  · refine ⟨Output.WellFormed.empty, ?_⟩
    intro x c y hcode
    exact absurd hcode.symm (by simp)
  · intro v offset region pieces hv hP hi ha hp
    refine hP.foldl_push (.inl hv.endsInName_output) ?_
    intro x c y hflat hc hx
    rw [flatMap_text_chunksOf] at hflat ⊢
    exact traced_of_region hv hv.wellPlaced hi ha hp hP.wellFormed hflat hc hx
  · intro files file o hP
    exact hP.mono (List.prefix_append _ _)
  · intro v offset command entry files o hv hP hf hi hl
    refine hP.foldl_push (.inr rfl) ?_
    -- No word starts with the line feed.
    intro x c y hfeed hc hx
    change ['\n'] = x ++ c :: y at hfeed
    cases x with
    | nil =>
      cases hfeed
      cases hc
    | cons d x =>
      obtain ⟨-, hnil⟩ := List.cons.inj hfeed
      exact absurd hnil.symm (by simp)

end Preprocessed

/-! ### Words among the tokens -/

namespace Token

theorem Separates.endsInName {g : Text} (h : Separates g) : endsInName g = false := by
  induction h with
  | nil => rfl
  | @blank c g hc hg ih =>
    refine Macro.endsInName_append_of (s := [c]) (fun _ => ?_) ih
    simp only [isBlank, Bool.or_eq_true, beq_iff_eq] at hc
    rcases hc with ((rfl | rfl) | rfl) | rfl <;> rfl
  | @line body g _ hg ih =>
    have hsplit : '/' :: '/' :: (body ++ '\n' :: g) = ('/' :: '/' :: body ++ ['\n']) ++ g := by
      simp
    rw [hsplit]
    exact Macro.endsInName_append_of (fun _ => Macro.endsInName_concat _ '\n') ih
  | @block body g _ hg ih =>
    have hsplit : '/' :: '*' :: (body ++ '*' :: '/' :: g) =
        ('/' :: '*' :: body ++ ['*'] ++ ['/']) ++ g := by
      simp
    rw [hsplit]
    exact Macro.endsInName_append_of (fun _ => Macro.endsInName_concat _ '/') ih

variable {c d : Cut} {cs : List Cut} {t : Text} {n : String}

/-- A name is read as far as it goes. -/
theorem Cut.Reads.of_name (h : d.Reads t) (hd : d.token = .name n) :
    ∃ x r, d.text = x :: r ∧ isNameStart x = true ∧ String.ofList d.text = n ∧
      (d.text ++ t).takeWhile isNameChar = d.text := by
  have hread := h.reads
  rw [hd] at hread
  obtain ⟨hsplit, hne, htoken⟩ := word?_eq_some_iff.mp (word?_of_first? hread rfl)
  obtain ⟨x, r, hxr⟩ := List.exists_cons_of_ne_nil hne
  have hname : String.ofList d.text = n := by
    unfold ofWord at htoken
    split at htoken
    · cases htoken
    · cases htoken
      rfl
  rw [hxr, List.cons_append, Text.splitName] at hsplit
  split at hsplit
  · next hx =>
    refine ⟨x, r, hxr, hx, hname, ?_⟩
    rw [hxr, List.cons_append, List.takeWhile_cons_of_pos (isNameChar_of_isNameStart hx)]
    exact hsplit
  · cases hsplit

/-- The tokens of a text are cuts that are read one after the other. -/
theorem exists_reading_of_lex {p : Preprocessed} {ts : List Lexeme} (h : lex p = .ok ts) :
    ∃ cs g, p.code = raw cs ++ g ∧ Reading cs g ∧ ts = lexemes 0 cs ++ [endMark p.code] := by
  obtain ⟨cs, g, rest, hcode, hread, -, hmatch⟩ := exists_reading 0 p.code
  unfold lex tokens at h
  cases htokens : tokensFrom 0 p.code with
  | error r =>
    rw [htokens] at h
    cases h
  | ok ls =>
    rw [htokens] at h hmatch
    obtain ⟨rfl, rfl⟩ := hmatch
    cases h
    rw [List.append_nil] at hcode hread
    exact ⟨cs, g, hcode, hread, rfl⟩

/-- Behind a word or an angle bracket a name starts a word of the text. -/
theorem Reading.endsInName {cs₁ cs₂ : List Cut} (h : Reading (cs₁ ++ c :: d :: cs₂) t)
    (hc : isWord c.token = true ∨ c.token = .symbol .rightAngle) (hd : d.token = .name n) :
    endsInName (raw (cs₁ ++ [c]) ++ d.gap) = false := by
  obtain ⟨-, hcr, hdr, -⟩ := reading_append.mp h
  refine Macro.endsInName_append_of (fun hgap => ?_) hdr.separates.endsInName
  rw [raw_append, raw_cons, raw_nil, List.append_nil, ← List.append_assoc,
    Macro.endsInName_append hcr.text_ne_nil]
  rcases hc with hc | hc
  · -- A word would go on with the name.
    obtain ⟨x, r, hxr, hx, -, -⟩ := hdr.of_name hd
    obtain ⟨-, -, hstop⟩ := of_first?_word hcr.reads hc
    have hnext := hstop x (by rw [raw_cons, hgap, hxr]; rfl)
    rw [isNameChar_of_isNameStart hx] at hnext
    cases hnext
  · have hread := hcr.reads
    rw [hc] at hread
    obtain ⟨-, s, hmem, hs⟩ := exists_of_symbol? (symbol?_of_first? hread)
    cases hs
    have hall : symbols.all (fun p => p.2 != .rightAngle || !Macro.endsInName p.1) = true := by
      decide
    have hangle := List.all_eq_true.mp hall _ hmem
    simpa using hangle

end Token

/-! ### Names of functions -/

namespace Decl

open PixelWrap.Decl.Parser Grammar Token

variable {p : Preprocessed} {ts rest : List Lexeme} {d : Decl} {ds : List Decl} {s : Signature}
  {l : Lexeme}

/-- What is written in front of the body of a function, or in place of one. -/
def signature? : Decl → Option Signature
  | .function f => some f.signature
  | .prototype s => some s
  | _ => none

/-- A signature that is read from the tokens has the token `l` as its name: it follows the
type of the result, and the parameters follow it. -/
def NameIs (p : Preprocessed) (ts : List Lexeme) (s : Signature) (l : Lexeme) : Prop :=
  ∃ attributes us₁ classes us₂ us₃ us₄,
    many (balanced .leftSquare .rightSquare) ts = .ok (attributes, us₁) ∧
    many storageClass us₁ = .ok (classes, us₂) ∧
    typeName p us₂ = .ok (s.returnType, l :: us₃) ∧ l.token = .name s.name ∧
    params p us₃ = .ok (s.params, us₄)

theorem exists_nameIs (h : signature p ts = .ok (s, rest)) :
    ∃ l, NameIs p ts s l ∧ s.location = (p.location? l.span.start).getD .nowhere := by
  obtain ⟨attributes, us₁, hattributes, h⟩ := bind_eq_ok.mp h
  obtain ⟨classes, us₂, hclasses, h⟩ := bind_eq_ok.mp h
  obtain ⟨T, us₃, hT, h⟩ := bind_eq_ok.mp h
  obtain ⟨⟨n, span⟩, us₄, hn, h⟩ := bind_eq_ok.mp h
  obtain ⟨Ps, us₅, hPs, h⟩ := bind_eq_ok.mp h
  obtain ⟨a, us₆, ha, h⟩ := bind_eq_ok.mp h
  cases h
  obtain ⟨l, rfl, hl, rfl⟩ := exists_of_name hn
  exact ⟨l, ⟨attributes, us₁, classes, us₂, us₄, us₅, hattributes, hclasses, hT, hl, hPs⟩, rfl⟩

/-- In front of the name the type ends. -/
theorem NameIs.exists_front (h : NameIs p ts s l) :
    ∃ front k after, ts = front ++ k :: l :: after ∧
      (isWord k.token = true ∨ k.token = .symbol .rightAngle) := by
  obtain ⟨_, _, _, _, us₃, _, hattributes, hclasses, hT, -, -⟩ := h
  obtain ⟨attributes, rfl⟩ := (shrinks_balanced _ _).keeps.many _ _ _ hattributes
  obtain ⟨classes, rfl⟩ := keeps_storageClass.many _ _ _ hclasses
  obtain ⟨const, type, rfl, -, htype, -⟩ := exists_of_typeName hT
  obtain ⟨k, hk, hlast⟩ := htype.last
  rcases List.eq_nil_or_concat type with rfl | ⟨type, u, rfl⟩
  · cases hk
  · obtain rfl : u.token = k := by simpa [kinds] using hk
    exact ⟨attributes ++ (classes ++ (const ++ type)), u, us₃, by simp, hlast⟩

theorem signature_of_declaration (h : declaration p ts = .ok (d, rest))
    (hs : d.signature? = some s) : ∃ r, signature p ts = .ok (s, r) := by
  rcases or_of_orElse h with h | h
  · obtain ⟨n, _, rfl, -⟩ := skips_of_struct h
    cases hs
  rcases or_of_orElse h with h | h
  · obtain ⟨n, rfl⟩ := exists_of_buffer h
    cases hs
  rcases or_of_orElse h with h | h
  · obtain ⟨n, _, rfl, -⟩ := skips_of_typedef h
    cases hs
  rcases or_of_orElse h with h | h
  · obtain ⟨s', r, hr, h⟩ := bind_eq_ok.mp h
    refine ⟨r, ?_⟩
    rcases or_of_orElse h with h | h
    · obtain ⟨span, _, -, h⟩ := bind_eq_ok.mp h
      cases h
      cases hs
      exact hr
    · obtain ⟨_, _, -, h⟩ := bind_eq_ok.mp h
      cases h
      cases hs
      exact hr
  rcases or_of_orElse h with h | h
  · obtain ⟨_, rfl, -⟩ := skips_of_global h
    cases hs
  · obtain ⟨_, _, -, h⟩ := bind_eq_ok.mp h
    cases h
    cases hs

/-- A declaration is read from where the one in front of it stopped. -/
theorem Outline.exists_suffix {roots : List (Decl × List Lexeme)} (h : Outline p ts roots)
    (hd : d ∈ roots.map Prod.fst) :
    ∃ front us rest, ts = front ++ us ∧ declaration p us = .ok (d, rest) := by
  induction h with
  | nil => cases hd
  | @cons ts rest d' roots _ hdecl _ ih =>
    rcases List.mem_cons.mp hd with rfl | hd
    · exact ⟨[], ts, rest, rfl, hdecl⟩
    · obtain ⟨front, us, rest', rfl, hus⟩ := ih hd
      obtain ⟨before, rfl⟩ := (shrinks_declaration p _ _ _ hdecl).1
      exact ⟨before ++ front, us, rest', by simp, hus⟩

/-- A function is read from the tokens. -/
theorem exists_declaration_of_mem_functions {f : Function} (hparse : parse p ts = .ok ds)
    (hf : f ∈ functions ds) :
    ∃ front us rest, ts = front ++ us ∧ declaration p us = .ok (.function f, rest) := by
  obtain ⟨roots, houtline, rfl⟩ := outline_of_declarations (declarations_of_parse hparse)
  obtain ⟨d, hd, hdf⟩ := List.mem_filterMap.mp hf
  cases d <;> cases hdf
  exact houtline.exists_suffix hd

/-- The name of a function starts a word of the text. -/
theorem exists_word_of_lex (hlex : lex p = .ok ts) {front after : List Lexeme} {k : Lexeme}
    {n : String} (hts : ts = front ++ k :: l :: after)
    (hk : isWord k.token = true ∨ k.token = .symbol .rightAngle) (hl : l.token = .name n) :
    ∃ x c y, p.code = x ++ c :: y ∧ Text.size x = l.span.start ∧ isNameStart c = true ∧
      endsInName x = false ∧ String.ofList ((c :: y).takeWhile isNameChar) = n := by
  obtain ⟨cs, g, hcode, hread, rfl⟩ := exists_reading_of_lex hlex
  -- The mark at the end is not the name.
  have hlexemes : ∃ after', lexemes 0 cs = front ++ k :: l :: after' := by
    rcases List.eq_nil_or_concat after with rfl | ⟨after', m, rfl⟩
    · have hlast : front ++ [k, l] = (front ++ [k]) ++ [l] := by simp
      rw [hlast] at hts
      cases (List.append_inj' hts rfl).2
      cases hl
    · have hlast : front ++ k :: l :: after'.concat m = (front ++ k :: l :: after') ++ [m] := by
        simp
      rw [hlast] at hts
      exact ⟨after', (List.append_inj' hts rfl).1⟩
  obtain ⟨after', hlexemes⟩ := hlexemes
  obtain ⟨cs₁, ds, rfl, -, hds⟩ := exists_of_lexemes_eq_append hlexemes
  match ds, hds with
  | c :: d :: ds, hds =>
    cases hds
    have hend := hread.endsInName hk hl
    obtain ⟨-, -, hd, -⟩ := reading_append.mp hread
    obtain ⟨y, r, hyr, hy, hname, hword⟩ := hd.of_name hl
    refine ⟨raw (cs₁ ++ [c]) ++ d.gap, y, r ++ (raw ds ++ g), ?_, ?_, hy, hend, ?_⟩
    · rw [hcode, ← List.cons_append, ← hyr]
      simp
    · simp
      omega
    · rw [← List.cons_append, ← hyr, hword, hname]

/-- **The location of a function is that of a whole word.**  It is an offset of a file that
was loaded, and the word that stands there is the name of the function, or else the name of a
macro that was replaced there, and the name of the function starts in what the macro gave. -/
theorem signature_location (load : String → Option Text) (name : Option String) (text : Text)
    {p : Preprocessed} (hrun : (Preprocessed.run load name text).result = .ok p)
    {ts : List Lexeme} (hlex : lex p = .ok ts) {ds : List Decl} (hparse : parse p ts = .ok ds)
    {d : Decl} (hd : d ∈ ds) {s : Signature} (hs : d.signature? = some s) :
    ∃ front us rest l, ts = front ++ us ∧ declaration p us = .ok (d, rest) ∧ NameIs p us s l ∧
      ∃ index file offset word, p.files[index]? = some file ∧
        s.location = file.location offset ∧ Text.WordAt word offset file.text ∧
        (String.ofList word = s.name ∨
          ∃ v before output, Preprocessed.Visited load name text v ∧ v.entry = ⟨index, file⟩ ∧
            v.Replaces offset word before output ∧ before ++ output <+: p.code ∧
            Text.size before ≤ l.span.start ∧
            l.span.start < Text.size (before ++ output)) := by
  obtain ⟨roots, houtline, rfl⟩ := outline_of_declarations (declarations_of_parse hparse)
  obtain ⟨front, us, rest, rfl, hdecl⟩ := houtline.exists_suffix hd
  obtain ⟨r, hsignature⟩ := signature_of_declaration hdecl hs
  obtain ⟨l, hname, hlocation⟩ := exists_nameIs hsignature
  refine ⟨front, us, rest, l, rfl, hdecl, hname, ?_⟩
  -- The name starts a word of the output, and that leads back to a word of a file.
  obtain ⟨before, k, after, hus, hk⟩ := hname.exists_front
  have hl : l.token = .name s.name := by
    obtain ⟨_, _, _, _, _, _, -, -, -, hl, -⟩ := hname
    exact hl
  have hts : front ++ us = (front ++ before) ++ k :: l :: after := by
    rw [hus, List.append_assoc]
  obtain ⟨x, c, y, hcode, hsize, hc, hx, hword⟩ := exists_word_of_lex hlex hts hk hl
  obtain ⟨place, hplace, file, w, hfile, hw, hcopy, hins⟩ :=
    (Preprocessed.wordsTraced_of_run hrun).traced x c y hcode hc hx
  rw [hsize] at hplace hins
  refine ⟨place.file, file, place.offset, w, hfile, ?_, hw, ?_⟩
  · rw [hlocation, Preprocessed.location?, hplace]
    simp [hfile]
  · cases hisCopy : place.isCopy with
    | true =>
      rw [hcopy hisCopy]
      exact .inl hword
    | false => exact .inr (hins hisCopy)

/-- A function whose name is what a macro gives. -/
def aliasSource : Text := "#define F g\nfloat F();\n".toList

/-- The function as it is read: its location is that of the macro. -/
def aliasSignature : Signature :=
  ⟨"g", ⟨some "f", 2, 7⟩, ⟨"float".toList, false⟩, [], none, []⟩

theorem decls?_aliasSource :
    decls? (fun _ => none) "f" aliasSource 8 = some [.prototype aliasSignature] := by
  cbv

theorem signature_location_alias :
    ∃ p ts, (Preprocessed.run (fun _ => none) (some "f") aliasSource).result = .ok p ∧
      lex p = .ok ts ∧ parse p ts = .ok [.prototype aliasSignature] ∧
      ∃ (file : SourceFile) (offset : Nat) (word : Text), file ∈ p.files ∧
        aliasSignature.location = file.location offset ∧ Text.WordAt word offset file.text ∧
        (String.ofList word = "g" ∨
          ∃ v before output, Preprocessed.Visited (fun _ => none) (some "f") aliasSource v ∧
            v.Replaces offset word before output) := by
  obtain ⟨p, ts, hrun, hlex, hparse⟩ := exists_of_decls? 8 decls?_aliasSource
  obtain ⟨_, _, _, _, -, -, -, index, file, offset, word, hfile, hlocation, hword, horigin⟩ :=
    signature_location (fun _ => none) (some "f") aliasSource hrun hlex hparse
      (List.mem_singleton_self _) rfl
  refine ⟨p, ts, hrun, hlex, hparse, file, offset, word, List.mem_of_getElem? hfile, hlocation,
    hword, ?_⟩
  rcases horigin with hname | ⟨v, before, output, hv, -, hreplaces, -⟩
  · exact .inl hname
  · exact .inr ⟨v, before, output, hv, hreplaces⟩

end Decl

end PixelWrap
