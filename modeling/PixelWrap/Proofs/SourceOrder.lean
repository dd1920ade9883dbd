import PixelWrap.Proofs.Plain
import PixelWrap.Proofs.SourceMap

/-!
# The output keeps the order of its sources

Text of one file is put out in the order in which it stands there, though text of other
files may come in between.  What is known of the output is therefore kept file by file: an
offset of the file that nothing put out so far goes beyond.  Running the items of a file
moves only the offset of that file, and those of the files that are loaded in between.

So if a stretch of the output starts and ends with bytes that were copied from one file,
there is a stretch of that file from the one to the other, and it can be shown as it is
written unless it starts or ends inside of a character.  That happens in comments only,
where each byte of a character has become a space.

## Main definitions

* `Place.stop`: the offset from which on text may follow a place of the same file.
* `Output.Below`: nothing of a file has been put out that goes beyond an offset.
* `Preprocessed.Ordered`: places in one file follow each other.
* `Item.Ascending`: items stand one after the other.
* `Text.AsciiAt`, `Text.SolidAt`: a byte is a character of its own, and not a space.

## Main results

* `Preprocessed.Ordered.push`: a chunk that stands behind what came before keeps the order.
* `Preprocessed.ordered_of_runItems`: **running items keeps the order**, and leaves the
  other files alone.
* `Comment.forall₂_blanks_blankFrom`: blanking comments keeps each byte or makes it a space.
* `Preprocessed.writtenText?_iff`: **what a stretch of the output shows of its source.**
-/

namespace PixelWrap

/-! ### Places in order -/

/-- The offset from which on text may follow in the same file. -/
def Place.stop (a : Place) : Nat := if a.isCopy then a.offset + 1 else a.offset

theorem Place.offset_le_stop (a : Place) : a.offset ≤ a.stop := by
  unfold Place.stop
  split <;> omega

/-- The file of the text. -/
def Origin.file : Origin → Nat
  | .copied file _ => file
  | .inserted file _ => file

/-- The offset of its first byte. -/
def Origin.offset : Origin → Nat
  | .copied _ offset => offset
  | .inserted _ offset => offset

/-- The offset from which on text may follow in the same file. -/
def Chunk.stop (c : Chunk) : Nat :=
  match c.origin with
  | .copied _ offset => offset + Text.size c.text
  | .inserted _ offset => offset

section Places

variable {c : Chunk} {d d' : Nat}

@[simp] theorem Origin.file_at (o : Origin) (d : Nat) : (o.at d).file = o.file := by
  cases o <;> rfl

theorem Origin.offset_le_at (o : Origin) (d : Nat) : o.offset ≤ (o.at d).offset := by
  cases o with
  | copied file offset => exact Nat.le_add_right ..
  | inserted file offset => exact Nat.le_refl _

theorem Origin.stop_at_le (o : Origin) (h : d < d') : (o.at d).stop ≤ (o.at d').offset := by
  cases o with
  | copied file offset =>
    show offset + d + 1 ≤ offset + d'
    omega
  | inserted file offset => exact Nat.le_refl _

theorem Chunk.stop_at_le (h : d < Text.size c.text) : (c.origin.at d).stop ≤ c.stop := by
  obtain ⟨text, origin⟩ := c
  cases origin with
  | copied file offset =>
    show offset + d + 1 ≤ offset + Text.size text
    dsimp only at h
    omega
  | inserted file offset => exact Nat.le_refl _

end Places

/-- Nothing of the file has been put out that goes beyond the offset. -/
def Output.Below (o : Output) (file n : Nat) : Prop :=
  ∀ p < Text.size o.code, ∀ a, o.place? p = some a → a.file = file → a.stop ≤ n

namespace Output

variable {o : Output} {c : Chunk} {file n m p : Nat} {a : Place}

theorem Below.mono (h : o.Below file n) (hn : n ≤ m) : o.Below file m :=
  fun p hp a ha hf => Nat.le_trans (h p hp a ha hf) hn

/-- A byte was there before the chunk, or it belongs to the chunk. -/
theorem cases_of_place?_push (ho : o.WellFormed) (hp : p < Text.size (o.push c).code)
    (ha : (o.push c).place? p = some a) :
    (p < Text.size o.code ∧ o.place? p = some a) ∨
      ∃ d, p = Text.size o.code + d ∧ d < Text.size c.text ∧ a = c.origin.at d := by
  rcases Nat.lt_or_ge p (Text.size o.code) with hlt | hge
  · exact .inl ⟨hlt, (place?_push_of_lt hlt).symm.trans ha⟩
  · rw [place?_push_of_le ho hge hp] at ha
    rw [code_push, Text.size_append] at hp
    exact .inr ⟨p - Text.size o.code, by omega, by omega, (Option.some.inj ha).symm⟩

theorem Below.push (ho : o.WellFormed) (h : o.Below file n)
    (hc : c.origin.file = file → c.stop ≤ n) : (o.push c).Below file n := by
  intro p hp a ha hf
  rcases cases_of_place?_push ho hp ha with ⟨hlt, ha⟩ | ⟨d, -, hd, rfl⟩
  · exact h p hlt a ha hf
  · rw [Origin.file_at] at hf
    exact Nat.le_trans (Chunk.stop_at_le hd) (hc hf)

end Output

namespace Preprocessed

open Macro (sources)

variable {load : String → Option Text} {depth : Nat} {e : Entry} {s s' : State}

/-- Each place lies in a file that has been loaded, copied bytes are found there, and places
in one file follow each other. -/
structure Ordered (files : List SourceFile) (o : Output) : Prop where
  wellFormed : o.WellFormed
  file_lt : ∀ p < Text.size o.code, ∀ a, o.place? p = some a → a.file < files.length
  found : ∀ p < Text.size o.code, ∀ a, o.place? p = some a → a.isCopy = true →
    LeadsTo (fun _ => False) files o.code p a
  stop_le : ∀ p q a b, p < q → q < Text.size o.code → o.place? p = some a →
    o.place? q = some b → a.file = b.file → a.stop ≤ b.offset

/-- The chunk belongs to a file that has been loaded, and if it is a copy it is found
there. -/
structure Fits (files : List SourceFile) (c : Chunk) : Prop where
  file_lt : c.origin.file < files.length
  found : ∀ d < Text.size c.text, (c.origin.at d).isCopy = true →
    LeadsTo (fun _ => False) files c.text d (c.origin.at d)

section Push

variable {files files' : List SourceFile} {o : Output} {c : Chunk}

theorem Ordered.mono (h : Ordered files o) (hf : files <+: files') : Ordered files' o :=
  ⟨h.wellFormed, fun p hp a ha => Nat.lt_of_lt_of_le (h.file_lt p hp a ha) hf.length_le,
    fun p hp a ha hc => (h.found p hp a ha hc).mono hf, h.stop_le⟩

/-- **A chunk that stands behind what came before keeps the order.** -/
theorem Ordered.push (h : Ordered files o) (hc : Fits files c)
    (hb : o.Below c.origin.file c.origin.offset) : Ordered files (o.push c) := by
  have hcode := Output.code_push (o := o) (c := c)
  refine ⟨h.wellFormed.push c, fun p hp a ha => ?_, fun p hp a ha hcopy => ?_,
    fun p q a b hpq hq ha hb' hf => ?_⟩
  · rcases Output.cases_of_place?_push h.wellFormed hp ha with ⟨hlt, ha⟩ | ⟨d, -, -, rfl⟩
    · exact h.file_lt p hlt a ha
    · rw [Origin.file_at]
      exact hc.file_lt
  · rcases Output.cases_of_place?_push h.wellFormed hp ha with ⟨hlt, ha⟩ | ⟨d, rfl, hd, rfl⟩
    · refine (h.found p hlt a ha hcopy).congr ?_
      rw [hcode, Text.bytes_append, List.getElem?_append_left (by rwa [Text.length_bytes])]
    · refine (hc.found d hd hcopy).congr ?_
      rw [hcode, Text.bytes_append,
        List.getElem?_append_right (by rw [Text.length_bytes]; omega), Text.length_bytes,
        Nat.add_sub_cancel_left]
  -- Both were there before, both belong to the chunk, or the chunk comes second.
  · have hp : p < Text.size (o.push c).code := by omega
    rcases Output.cases_of_place?_push h.wellFormed hq hb' with ⟨hlt, hb'⟩ | ⟨d', rfl, hd', rfl⟩
    · have hp' : p < Text.size o.code := by omega
      rw [Output.place?_push_of_lt hp'] at ha
      exact h.stop_le p q a b hpq hlt ha hb' hf
    · rcases Output.cases_of_place?_push h.wellFormed hp ha with ⟨hlt, ha⟩ | ⟨d, rfl, hd, rfl⟩
      · rw [Origin.file_at] at hf
        exact Nat.le_trans (hb p hlt a ha hf) (Origin.offset_le_at ..)
      · exact Origin.stop_at_le _ (by omega)

theorem fits_inserted {file : Nat} (text : Text) (offset : Nat) (h : file < files.length) :
    Fits files ⟨text, .inserted file offset⟩ :=
  ⟨h, fun _ _ hcopy => nomatch hcopy⟩

theorem fits_copied {text : Text} {offset : Nat} (he : files[e.index]? = some e.file)
    (h : Text.StandsAt text offset e.file.code) :
    Fits files ⟨text, .copied e.index offset⟩ :=
  ⟨(List.getElem?_eq_some_iff.mp he).1, fun d hd _ => chunkSound_copied he h d hd⟩

end Push

/-! ### Regions -/

/-- Pieces that stand in a file behind what came before are put out in order.  Only the
offset of that file moves, to the end of the pieces. -/
theorem Ordered.pieces {files : List SourceFile} {o : Output} {offset : Nat}
    {ps : List Macro.Piece} (h : Ordered files o) (he : files[e.index]? = some e.file)
    (hps : Text.StandsAt (sources ps) offset e.file.code) (hb : o.Below e.index offset) :
    Ordered files ((chunksOf e.index offset ps).foldl Output.push o) ∧
      ((chunksOf e.index offset ps).foldl Output.push o).Below e.index
        (offset + Text.size (sources ps)) ∧
      ∀ file n, file ≠ e.index → o.Below file n →
        ((chunksOf e.index offset ps).foldl Output.push o).Below file n := by
  induction ps generalizing o offset with
  | nil => exact ⟨h, hb, fun _ _ _ hn => hn⟩
  | cons q ps ih =>
    rw [Macro.sources_cons] at hps
    -- The first chunk, and then the others from the end of the first piece on.
    have step : ∀ c : Chunk, Fits files c → c.origin.file = e.index → c.origin.offset = offset →
        c.stop ≤ offset + Text.size q.source →
        chunksOf e.index offset (q :: ps) =
          c :: chunksOf e.index (offset + Text.size q.source) ps →
        Ordered files ((chunksOf e.index offset (q :: ps)).foldl Output.push o) ∧
          ((chunksOf e.index offset (q :: ps)).foldl Output.push o).Below e.index
            (offset + Text.size (sources (q :: ps))) ∧
          ∀ file n, file ≠ e.index → o.Below file n →
            ((chunksOf e.index offset (q :: ps)).foldl Output.push o).Below file n := by
      intro c hfits hfile hoffset hstop hchunks
      rw [hchunks, List.foldl_cons, Macro.sources_cons, Text.size_append, ← Nat.add_assoc]
      have hpush : Ordered files (o.push c) := h.push hfits (by rw [hfile, hoffset]; exact hb)
      obtain ⟨hordered, hbelow, hframe⟩ := ih hpush hps.append_right
        ((hb.mono (Nat.le_add_right ..)).push h.wellFormed fun _ => hstop)
      exact ⟨hordered, hbelow, fun file n hne hn => hframe file n hne
        (hn.push h.wellFormed fun heq => absurd (heq.symm.trans hfile) hne)⟩
    cases q with
    | kept source => exact step _ (fits_copied he hps.append_left) rfl rfl (Nat.le_refl _) rfl
    | replaced source output =>
      exact step _ (fits_inserted output offset (List.getElem?_eq_some_iff.mp he).1) rfl rfl
        (Nat.le_add_right ..) rfl

end Preprocessed

/-! ### Items -/

namespace Item

/-- The offset at which the item starts. -/
def start : Item → Nat
  | .directive o _ => o
  | .region o _ => o

/-- The offset from which on other items may follow. -/
def stop : Item → Nat
  | .directive o _ => o
  | .region o x => o + Text.size x

/-- The items stand one after the other, none in front of the offset. -/
def Ascending : Nat → List Item → Prop
  | _, [] => True
  | n, i :: is => n ≤ i.start ∧ Ascending i.stop is

theorem Ascending.mono {n m : Nat} {is : List Item} (h : Ascending n is) (hm : m ≤ n) :
    Ascending m is := by
  cases is with
  | nil => exact trivial
  | cons i is => exact ⟨Nat.le_trans hm h.1, h.2⟩

theorem ascending_ofLines (offset : Nat) (ls : List Text) :
    Ascending offset (ofLines offset ls) := by
  fun_induction ofLines offset ls with
  | case1 => exact trivial
  | case2 offset l ls _ more ih =>
    refine ⟨Nat.le_add_right .., ih.mono ?_⟩
    have hfront : Text.size (l.takeWhile isSpace) ≤ Text.size l := by
      obtain ⟨r, hr⟩ := List.takeWhile_prefix (l := l) isSpace
      conv_rhs => rw [← hr, Text.size_append]
      exact Nat.le_add_right ..
    rw [List.flatten_cons, Text.size_append]
    show offset + Text.size (l.takeWhile isSpace) ≤ _
    omega
  | case3 offset l ls _ more ih => exact ⟨Nat.le_refl _, ih⟩

theorem start_le_stop (i : Item) : i.start ≤ i.stop := by
  cases i with
  | directive => exact Nat.le_refl _
  | region => exact Nat.le_add_right ..

end Item

/-! ### Runs -/

namespace Preprocessed

variable {load : String → Option Text} {depth : Nat} {e : Entry} {s s' : State}

/-- Running from one state to another keeps the order, and moves nothing of the files that
had been loaded before other than the one that is run. -/
structure Advances (e : Entry) (s s' : State) : Prop where
  ordered : Ordered s'.files s'.output
  frame : ∀ file n, file < s.files.length → file ≠ e.index → s.output.Below file n →
    s'.output.Below file n

theorem Advances.of_quiet (ho : Ordered s.files s.output) (hf : s'.files = s.files)
    (hout : s'.output = s.output) : Advances e s s' := by
  constructor
  · rw [hf, hout]
    exact ho
  · intro file m _ _ hm
    rw [hout]
    exact hm

theorem Advances.trans {s₁ : State} (h : Advances e s s₁) (hf : s.files <+: s₁.files)
    (h' : Advances e s₁ s') : Advances e s s' :=
  ⟨h'.ordered, fun file m hlt hne hm =>
    h'.frame file m (Nat.lt_of_lt_of_le hlt hf.length_le) hne (h.frame file m hlt hne hm)⟩

/-- A file that is included advances apart from the file that includes it, which comes as far as
to the directive. -/
theorem advances_of_included {entry : Entry} {s₁ : State} {offset : Nat}
    (hindex : entry.index = s.files.length) (he : e.index < s.files.length)
    (hf : (s.enter entry).files <+: s₁.files) (h : Advances entry (s.enter entry) s₁)
    (hb : s.output.Below e.index offset) :
    Advances e s (s₁.emit [⟨['\n'], .inserted e.index offset⟩]) ∧
      (s₁.emit [⟨['\n'], .inserted e.index offset⟩]).output.Below e.index offset := by
  have hlength : s.files.length + 1 ≤ s₁.files.length := by
    have hle := hf.length_le
    simpa only [State.enter, List.length_append, List.length_singleton] using hle
  have hkeep : ∀ file m, file < s.files.length → s.output.Below file m →
      s₁.output.Below file m := by
    intro file m hlt hm
    refine h.frame file m ?_ (by omega) hm
    simp only [State.enter, List.length_append]
    omega
  have hpush : ∀ {file m}, s₁.output.Below file m → (file = e.index → offset ≤ m) →
      (s₁.output.push ⟨['\n'], .inserted e.index offset⟩).Below file m :=
    fun hm hle => hm.push h.ordered.wellFormed fun heq => hle heq.symm
  have hb₁ := hkeep e.index offset he hb
  refine ⟨⟨h.ordered.push (fits_inserted ['\n'] offset (by omega)) hb₁, ?_⟩, ?_⟩
  · intro file m hlt hne hm
    exact hpush (hkeep file m hlt hm) fun heq => absurd heq hne
  · exact hpush hb₁ fun _ => Nat.le_refl _

/-- **Running items keeps the order**, and leaves the other files alone. -/
theorem ordered_of_runItems {is : List Item} {n : Nat}
    (h : runItems load depth e s is = .ok s') (ho : Ordered s.files s.output)
    (he : s.files[e.index]? = some e.file) (his : ∀ i ∈ is, i.StandsIn e.file.code)
    (hn : Item.Ascending n is) (hb : s.output.Below e.index n) : Advances e s s' := by
  refine runItems_induction (P := fun _ e s is s' => ∀ n, Ordered s.files s.output →
    s.files[e.index]? = some e.file → (∀ i ∈ is, i.StandsIn e.file.code) →
    Item.Ascending n is → s.output.Below e.index n → Advances e s s')
    (fun _ _ _ _ ho _ _ _ _ => .of_quiet ho rfl rfl) ?_ h n ho he his hn hb
  intro depth e s s₁ s' i is hbelow hstep hrest n ho he his hn hb
  have hfirst : runItems load depth e s [i] = .ok s₁ := by
    rw [runItems_cons, hstep]
    rfl
  have hpre : s.files <+: s₁.files := files_isPrefix hfirst
  -- The other items go on from what the first one leaves.
  suffices hadvances : Advances e s s₁ ∧ s₁.output.Below e.index i.stop by
    obtain ⟨h₁, hb₁⟩ := hadvances
    exact h₁.trans hpre (hrest _ h₁.ordered (getElem?_of_isPrefix hpre he)
      (fun j hj => his j (List.mem_cons_of_mem _ hj)) hn.2 hb₁)
  have hb' := hb.mono hn.1
  have hi := his i (List.mem_cons_self ..)
  cases stepped_of_step hstep with
  | quiet hf hout =>
    refine ⟨.of_quiet ho hf hout, ?_⟩
    rw [hout]
    exact hb'.mono i.start_le_stop
  | @stored offset text pieces _ hp =>
    have htext := (Macro.scanned_of_scan hp).source_eq
    obtain ⟨hordered, hlower, hframe⟩ := ho.pieces he (htext ▸ hi) hb'
    exact ⟨⟨hordered, fun file m _ hne hm => hframe file m hne hm⟩, htext ▸ hlower⟩
  | @included below offset command entry s₂ hd hl hinner =>
    subst hd
    cases hl
    rw [runFile_eq] at hinner
    -- Nothing of the new file has been put out yet.
    have hnew : s.output.Below s.files.length 0 := fun p hp a ha hfile =>
      absurd (ho.file_lt p hp a ha) (by omega)
    have hadvances := hbelow (Nat.lt_succ_self _) hinner 0
      (ho.mono (List.prefix_append _ _)) (by simp [State.enter])
      (fun j hj => Item.standsIn_of_mem_ofText hj) (Item.ascending_ofLines 0 _) hnew
    exact advances_of_included rfl (List.getElem?_eq_some_iff.mp he).1
      (files_isPrefix hinner) hadvances hb'

/-- **The output of a run keeps the order of its sources.** -/
theorem ordered_of_run {name : Option String} {text : Text} {t : Preprocessed}
    (h : (run load name text).result = .ok t) : Ordered t.files t.toOutput := by
  obtain ⟨s, hrun, rfl⟩ := exists_of_run h
  have hempty : ∀ {p : Nat} {b : Prop}, p < Text.size (startState name text).output.code → b :=
    fun hp => absurd hp (Nat.not_lt_zero _)
  refine (ordered_of_runItems hrun ⟨.empty, fun p hp => hempty hp, fun p hp => hempty hp,
    fun p q a b _ hq => hempty hq⟩ rfl (fun i hi => Item.standsIn_of_mem_ofText hi)
    (Item.ascending_ofLines 0 _) fun p hp => hempty hp).ordered

end Preprocessed

/-! ### Slices -/

namespace Text

variable {t w : Text} {n m : Nat}

theorem exists_of_dropBytes? (h : dropBytes? n t = some w) : ∃ s, t = s ++ w ∧ size s = n := by
  induction t generalizing n with
  | nil =>
    rw [dropBytes?] at h
    split at h
    · next hn =>
      cases h
      exact ⟨[], rfl, hn.symm⟩
    · cases h
  | cons c t ih =>
    rw [dropBytes?] at h
    split at h
    · next hn =>
      cases h
      exact ⟨[], rfl, hn.symm⟩
    · split at h
      · obtain ⟨s, rfl, hs⟩ := ih h
        refine ⟨c :: s, rfl, ?_⟩
        rw [size_cons]
        omega
      · cases h

theorem exists_of_takeBytes? (h : takeBytes? n t = some w) : ∃ s, t = w ++ s ∧ size w = n := by
  induction t generalizing n w with
  | nil =>
    rw [takeBytes?] at h
    split at h
    · next hn =>
      cases h
      exact ⟨[], rfl, hn.symm⟩
    · cases h
  | cons c t ih =>
    rw [takeBytes?] at h
    split at h
    · next hn =>
      cases h
      exact ⟨c :: t, rfl, hn.symm⟩
    · split at h
      · obtain ⟨w, hw, rfl⟩ := Option.map_eq_some_iff.mp h
        obtain ⟨s, rfl, hs⟩ := ih hw
        refine ⟨s, rfl, ?_⟩
        rw [size_cons]
        omega
      · cases h

/-- **A slice is the text that stands between two offsets.** -/
theorem slice?_eq_some_iff : slice? n m t = some w ↔ StandsAt w n t ∧ n + size w = m := by
  constructor
  · intro h
    unfold slice? at h
    split at h
    · next hle =>
      obtain ⟨r, hr, hw⟩ := Option.bind_eq_some_iff.mp h
      obtain ⟨before, rfl, hbefore⟩ := exists_of_dropBytes? hr
      obtain ⟨after, rfl, hsize⟩ := exists_of_takeBytes? hw
      exact ⟨⟨before, after, (List.append_assoc ..).symm, hbefore⟩, by omega⟩
    · cases h
  · rintro ⟨⟨before, after, rfl, rfl⟩, rfl⟩
    rw [List.append_assoc]
    exact slice?_append before w after

/-! ### Bytes and characters -/

/-- The byte at the offset is a character of its own. -/
def AsciiAt (t : Text) (n : Nat) : Prop := ∃ b, (bytes t)[n]? = some b ∧ b < 128

/-- The byte at the offset is a character of its own, and no space. -/
def SolidAt (t : Text) (n : Nat) : Prop := ∃ b, (bytes t)[n]? = some b ∧ b < 128 ∧ b ≠ 32

theorem bytes_cons (c : Char) (t : Text) : bytes (c :: t) = String.utf8EncodeChar c ++ bytes t :=
  List.flatMap_cons

/-- The bytes of a character that has more than one are all out of that range. -/
theorem le_of_mem_utf8EncodeChar {c : Char} {b : UInt8} (hb : b ∈ String.utf8EncodeChar c)
    (hc : c.utf8Size ≠ 1) : 128 ≤ b := by
  have hlen : (String.utf8EncodeChar c).length ≠ 1 := by rwa [String.length_utf8EncodeChar]
  have hlarge : ∀ {x y z : Nat}, b = UInt8.ofNat (x % y + z) → y + z ≤ 256 → 0 < y → 128 ≤ z →
      128 ≤ b := by
    intro x y z hx hle hy hz
    have hlt := Nat.mod_lt x hy
    have hsmall : x % y + z < UInt8.size := Nat.lt_of_lt_of_le (by omega) hle
    rw [hx, UInt8.le_iff_toNat_le, UInt8.toNat_ofNat_of_lt' hsmall]
    show 128 ≤ x % y + z
    omega
  unfold String.utf8EncodeChar at hb hlen
  dsimp only at hb hlen
  split at hb
  · next h => exact absurd (by rw [if_pos h]; rfl) hlen
  · split at hb
    · simp only [List.mem_cons, List.not_mem_nil, or_false] at hb
      rcases hb with h | h <;> exact hlarge h (by decide) (by decide) (by decide)
    · split at hb
      · simp only [List.mem_cons, List.not_mem_nil, or_false] at hb
        rcases hb with h | h | h <;> exact hlarge h (by decide) (by decide) (by decide)
      · simp only [List.mem_cons, List.not_mem_nil, or_false] at hb
        rcases hb with h | h | h | h <;> exact hlarge h (by decide) (by decide) (by decide)

/-- Such a byte starts and ends a character. -/
theorem AsciiAt.exists_eq {t : Text} {n : Nat} (h : AsciiAt t n) :
    ∃ before c after, t = before ++ c :: after ∧ size before = n ∧ c.utf8Size = 1 := by
  obtain ⟨b, hb, hlt⟩ := h
  induction t generalizing n with
  | nil => cases hb
  | cons c t ih =>
    rw [bytes_cons] at hb
    have hlen := String.length_utf8EncodeChar c
    rcases Nat.lt_or_ge n c.utf8Size with hn | hn
    · rw [List.getElem?_append_left (by omega)] at hb
      have hc : c.utf8Size = 1 := by
        by_contra hc
        exact absurd hlt (UInt8.not_lt.mpr (le_of_mem_utf8EncodeChar (List.mem_of_getElem? hb) hc))
      exact ⟨[], c, t, rfl, by rw [size_nil]; omega, hc⟩
    · rw [List.getElem?_append_right (by omega)] at hb
      obtain ⟨before, d, after, rfl, hsize, hd⟩ := ih hb
      exact ⟨c :: before, d, after, rfl, by rw [size_cons]; omega, hd⟩

/-- Between two of them stands a text. -/
theorem exists_standsAt_of_asciiAt {t : Text} {n m : Nat} (hn : AsciiAt t n) (hm : AsciiAt t m)
    (h : n ≤ m) : ∃ w, StandsAt w n t ∧ n + size w = m + 1 := by
  obtain ⟨front, c, back, hfront, rfl, hc⟩ := hn.exists_eq
  obtain ⟨front', d, back', hback, rfl, hd⟩ := hm.exists_eq
  -- The first of the two offsets lies in what comes before the end of the second character.
  obtain ⟨w, hw⟩ : ∃ w, front' ++ [d] = front ++ w := by
    have hcut : front ++ c :: back = (front' ++ [d]) ++ back' := by
      rw [← hfront, hback, List.append_assoc]
      rfl
    obtain ⟨w, hw, -⟩ := exists_of_append_eq hcut (h.trans (by rw [size_append]; omega))
    exact ⟨w, hw⟩
  refine ⟨w, ⟨front, back', ?_, rfl⟩, ?_⟩
  · rw [hback, ← hw, List.append_assoc]
    rfl
  · have hsize := congrArg size hw
    rw [size_append, size_append, size_cons, size_nil] at hsize
    omega
end Text

namespace Comment

open Text (bytes)

/-- What stands in place of a byte: the byte itself or a space. -/
def Blanks (b c : UInt8) : Prop := b = c ∨ b = 32

theorem forall₂_blanks_self (l : List UInt8) : List.Forall₂ Blanks l l :=
  List.forall₂_same.mpr fun _ _ => .inl rfl

theorem forall₂_blanks_spaces (l : List UInt8) :
    List.Forall₂ Blanks (bytes (List.replicate l.length ' ')) l := by
  induction l with
  | nil => exact .nil
  | cons c l ih => exact .cons (.inr rfl) ih

theorem forall₂_blanks_blankChar (c : Char) :
    List.Forall₂ Blanks (bytes (blankChar c)) (String.utf8EncodeChar c) := by
  unfold blankChar
  split
  · rw [Text.bytes_cons]
    exact List.append_nil _ ▸ forall₂_blanks_self _
  · rw [← String.length_utf8EncodeChar]
    exact forall₂_blanks_spaces _

/-- **Blanking comments keeps each byte or makes it a space.** -/
theorem forall₂_blanks_blankFrom (m : Mode) (t : Text) :
    List.Forall₂ Blanks (bytes (blankFrom m t)) (bytes t) := by
  have hkeep : ∀ (c : Char) {s r : Text}, List.Forall₂ Blanks (bytes s) (bytes r) →
      List.Forall₂ Blanks (bytes (c :: s)) (bytes (c :: r)) := fun c s r h => by
    rw [Text.bytes_cons, Text.bytes_cons]
    exact List.rel_append (forall₂_blanks_self _) h
  have hblank : ∀ (c : Char) {s r : Text}, List.Forall₂ Blanks (bytes s) (bytes r) →
      List.Forall₂ Blanks (bytes (blankChar c ++ s)) (bytes (c :: r)) := fun c s r h => by
    rw [Text.bytes_append, Text.bytes_cons]
    exact List.rel_append (forall₂_blanks_blankChar c) h
  have hmark : ∀ {s r : Text} (c d : UInt8), List.Forall₂ Blanks (bytes s) (bytes r) →
      List.Forall₂ Blanks (bytes (' ' :: ' ' :: s)) (c :: d :: bytes r) := fun c d h =>
    .cons (.inr rfl) (.cons (.inr rfl) h)
  fun_induction blankFrom m t with
  | case1 => exact .nil
  | case2 r ih | case3 r ih | case6 r ih => exact hmark _ _ ih
  | case4 c r _ _ ih => exact hkeep c ih
  | case5 c r ih => exact hblank c ih
  | case7 c r _ ih => exact hblank c ih
  | case8 c r ih => exact hkeep _ (hkeep c ih)
  | case9 c r _ ih => exact hkeep c ih

/-- A byte of the blanked text that is no space stands in the text too. -/
theorem getElem?_bytes_of_blank {t : Text} {n : Nat} {b : UInt8}
    (h : (bytes (blank t))[n]? = some b) (hb : b ≠ 32) : (bytes t)[n]? = some b := by
  obtain ⟨hn, rfl⟩ := List.getElem?_eq_some_iff.mp h
  have hall := forall₂_blanks_blankFrom .code t
  have hn' : n < (bytes t).length := hall.length_eq ▸ hn
  rcases hall.get hn hn' with heq | heq
  · rw [List.getElem?_eq_getElem hn']
    exact congrArg some heq.symm
  · exact absurd heq hb

end Comment

/-! ### Stretches of the output -/

namespace Preprocessed

variable {t : Preprocessed} {s e : Nat} {a b : Place}

theorem Ordered.offset_le (h : Ordered t.files t.toOutput) (hse : s ≤ e) (he : e < Text.size t.code)
    (ha : t.place? s = some a) (hb : t.place? e = some b) (hf : a.file = b.file) :
    a.offset ≤ b.offset := by
  rcases Nat.eq_or_lt_of_le hse with rfl | hlt
  · cases ha.symm.trans hb
    exact Nat.le_refl _
  · exact Nat.le_trans a.offset_le_stop (h.stop_le s e a b hlt he ha hb hf)

/-- A stretch between two copied bytes of one file is a slice of that file. -/
theorem Ordered.writtenText?_eq (h : Ordered t.files t.toOutput) (hse : s < e)
    (he : e ≤ Text.size t.code) (ha : t.place? s = some a) (hb : t.place? (e - 1) = some b)
    (hca : a.isCopy = true) (hcb : b.isCopy = true) (hf : a.file = b.file) :
    ∃ file, t.files[a.file]? = some file ∧
      t.writtenText? ⟨s, e⟩ = Text.slice? a.offset (b.offset + 1) file.text := by
  obtain ⟨file, hfile, hlt, -, -⟩ := h.found (e - 1) (by omega) b hb hcb
  rw [← hf] at hfile
  have hle : a.offset ≤ b.offset := h.offset_le (by omega) (by omega) ha hb hf
  refine ⟨file, hfile, ?_⟩
  rw [writtenText?, if_neg (by dsimp only; omega)]
  simp only [ha, hb, hfile, Option.bind_eq_bind, Option.bind_some, hca, hcb, ← hf,
    beq_self_eq_true, hle, decide_true, Bool.and_true, if_true,
    wrapBeyond_of_le (show b.offset + 1 ≤ _ from hlt)]

/-- A copied byte that is no space is what stands in the file. -/
theorem Ordered.getElem?_bytes (h : Ordered t.files t.toOutput) {file : SourceFile} {c : UInt8}
    (hs : s < Text.size t.code) (ha : t.place? s = some a) (hca : a.isCopy = true)
    (hfile : t.files[a.file]? = some file) (hc : (Text.bytes t.code)[s]? = some c) (hne : c ≠ 32) :
    (Text.bytes file.text)[a.offset]? = some c := by
  obtain ⟨file', hfile', -, hcopy, -⟩ := h.found s hs a ha hca
  cases hfile.symm.trans hfile'
  exact Comment.getElem?_bytes_of_blank ((hcopy hca).trans hc) hne

theorem Ordered.asciiAt (h : Ordered t.files t.toOutput) {file : SourceFile}
    (hs : s < Text.size t.code) (ha : t.place? s = some a) (hca : a.isCopy = true)
    (hfile : t.files[a.file]? = some file) (hsolid : Text.SolidAt t.code s) :
    Text.AsciiAt file.text a.offset := by
  obtain ⟨c, hc, hlt, hne⟩ := hsolid
  exact ⟨c, h.getElem?_bytes hs ha hca hfile hc hne, hlt⟩

/-- **What a stretch of the output shows of its source.**  Places in one file are in order,
and a copied byte is followed by later ones only.  So a stretch that starts and ends with
copied bytes of one file is shown if it does not start or end inside of a character there,
and what is shown is the text of the file from the first of the two bytes to the last.  In
particular it is shown if these bytes are ASCII in the file, as they are if they are ASCII
in the output and no spaces. -/
theorem writtenText?_iff (load : String → Option Text) (name : Option String) (text : Text)
    {t : Preprocessed} (h : (run load name text).result = .ok t) :
    (∀ p q a b, p < q → q < Text.size t.code → t.place? p = some a → t.place? q = some b →
      a.file = b.file → a.offset ≤ b.offset ∧ (a.isCopy = true → a.offset < b.offset)) ∧
    ∀ s e a b, s < e → e ≤ Text.size t.code → t.place? s = some a → t.place? (e - 1) = some b →
      a.isCopy = true → b.isCopy = true → a.file = b.file →
      ∃ file, t.files[a.file]? = some file ∧
        (∀ w, t.writtenText? ⟨s, e⟩ = some w ↔
          Text.StandsAt w a.offset file.text ∧ a.offset + Text.size w = b.offset + 1) ∧
        (Text.AsciiAt file.text a.offset ∨ Text.SolidAt t.code s →
          Text.AsciiAt file.text b.offset ∨ Text.SolidAt t.code (e - 1) →
          ∃ w, t.writtenText? ⟨s, e⟩ = some w) := by
  have ho := ordered_of_run h
  refine ⟨fun p q a b hpq hq ha hb hf => ?_, fun s e a b hse he ha hb hca hcb hf => ?_⟩
  · have hstop := ho.stop_le p q a b hpq hq ha hb hf
    refine ⟨Nat.le_trans a.offset_le_stop hstop, fun hca => ?_⟩
    rw [Place.stop, if_pos hca] at hstop
    exact hstop
  · obtain ⟨file, hfile, hslice⟩ := ho.writtenText?_eq hse he ha hb hca hcb hf
    refine ⟨file, hfile, fun w => by rw [hslice, Text.slice?_eq_some_iff], fun hfirst hlast => ?_⟩
    have hfirst : Text.AsciiAt file.text a.offset :=
      hfirst.elim id (ho.asciiAt (by omega) ha hca hfile)
    have hlast : Text.AsciiAt file.text b.offset :=
      hlast.elim id (ho.asciiAt (by omega) hb hcb (hf ▸ hfile))
    obtain ⟨w, hw⟩ := Text.exists_standsAt_of_asciiAt hfirst hlast
      (ho.offset_le (by omega) (by omega) ha hb hf)
    exact ⟨w, hslice.trans (Text.slice?_eq_some_iff.mpr hw)⟩

/-- A line of the main file with a macro in it, put out after the text of another file, is
shown as it is written. -/
theorem writtenText?_iff_macro :
    ∃ t, (run (fun _ => some ['y', '\n']) none "#include <f>\n#define A b\nx A\n".toList).result =
        .ok t ∧
      t.code = "y\n\nx b\n".toList ∧ t.place? 3 = some ⟨0, 25, true⟩ ∧
      t.place? 6 = some ⟨0, 28, true⟩ ∧ t.writtenText? ⟨3, 7⟩ = some "x A\n".toList := by
  have hfirst : includingOutput.place? 3 = some ⟨0, 25, true⟩ := by cbv
  have hlast : includingOutput.place? 6 = some ⟨0, 28, true⟩ := by cbv
  have hsize : 7 ≤ Text.size includingOutput.code := by decide
  obtain ⟨-, hspans⟩ := writtenText?_iff _ _ _ run_includingOutput
  obtain ⟨file, hfile, hshown, -⟩ := hspans 3 7 _ _ (by decide) hsize hfirst hlast rfl rfl rfl
  refine ⟨includingOutput, run_includingOutput, rfl, hfirst, hlast, (hshown _).mpr ?_⟩
  cases hfile
  exact ⟨⟨"#include <f>\n#define A b\n".toList, [], rfl, rfl⟩, rfl⟩

/-- The first byte of a character of a comment has become a space.  A stretch that ends with
it starts and ends with copied ASCII bytes, and yet it is not shown. -/
theorem exists_writtenText?_eq_none :
    ∃ t, (run (fun _ => none) none "/*é*/".toList).result = .ok t ∧
      t.place? 0 = some ⟨0, 0, true⟩ ∧ t.place? 2 = some ⟨0, 2, true⟩ ∧
      Text.AsciiAt t.code 0 ∧ Text.AsciiAt t.code 2 ∧ 3 ≤ Text.size t.code ∧
      t.writtenText? ⟨0, 3⟩ = none := by
  have hspace : (32 : UInt8) < 128 := by decide
  exact ⟨_, run_of_plain _ _ (by decide +kernel), by cbv, by cbv, ⟨32, by decide, hspace⟩,
    ⟨32, by decide, hspace⟩, by decide, by cbv⟩

end Preprocessed

end PixelWrap
