import PixelWrap.Proofs.OuterWords

/-!
# Arguments in place of parameters

A replacement text is cut into segments when its macro is defined, and the segments are put
together again with the arguments in place when the macro is used.  If no mark stands in the
text, this comes to one thing: each word that is a parameter is replaced by its argument.  All
of them are replaced at once, so that a parameter in an argument stays, and nothing else moves.

What is put together is compared with the text itself, cut into pieces that are kept and pieces
that are replaced.  A piece is replaced at an offset exactly if a parameter stands there as a
whole word outside of literals.

## Main definitions

* `Macro.Piece.At`: a piece stands behind so many bytes of the text that was cut.
* `Macro.Replaces`: the pieces of a text in which all words that stand for something are replaced.
* `Macro.argument?`: the argument that a word stands for.

## Main results

* `Macro.exists_replaces_segments`: the segments of a text without marks show the text with its
  parameters replaced.
* `Macro.render_replaces`: **the arguments are put in for all parameters at once.**
-/

namespace PixelWrap.Macro

open Text (OuterWordAt size)

/-! ### Words that are replaced -/

/-- The piece stands in the pieces, behind `n` bytes of the text that they were cut from. -/
def Piece.At (p : Piece) (n : Nat) (ps : List Piece) : Prop :=
  ∃ before after, ps = before ++ p :: after ∧ size (sources before) = n

theorem Piece.not_at_nil {p : Piece} {n : Nat} : ¬p.At n [] := by
  rintro ⟨before, after, h, -⟩
  simp at h

/-- A piece stands in front, or behind the first one. -/
theorem Piece.at_cons_iff {p q : Piece} {n : Nat} {ps : List Piece} :
    p.At n (q :: ps) ↔ (p = q ∧ n = 0) ∨ ∃ k, n = size q.source + k ∧ p.At k ps := by
  constructor
  · rintro ⟨before, after, h, rfl⟩
    cases before with
    | nil =>
      obtain ⟨rfl, -⟩ := List.cons.inj h
      exact .inl ⟨rfl, rfl⟩
    | cons d before =>
      obtain ⟨rfl, rfl⟩ := List.cons.inj h
      refine .inr ⟨size (sources before), ?_, before, after, rfl, rfl⟩
      rw [sources_cons, Text.size_append]
  · rintro (⟨rfl, rfl⟩ | ⟨k, rfl, before, after, rfl, rfl⟩)
    · exact ⟨[], ps, rfl, rfl⟩
    · refine ⟨q :: before, after, rfl, ?_⟩
      rw [sources_cons, Text.size_append]

/-- The pieces are cut from the text, and those that are replaced are exactly the words outside
of literals that stand for something. -/
structure Replaces (stands : Text → Option Text) (text : Text) (ps : List Piece) : Prop where
  sources_eq : sources ps = text
  at_iff (w out : Text) (n : Nat) :
    (Piece.replaced w out).At n ps ↔ OuterWordAt w n text ∧ stands w = some out

namespace Replaces

variable {stands : Text → Option Text} {w rest : Text} {ps : List Piece}

theorem nil : Replaces stands [] [] where
  sources_eq := rfl
  at_iff _ _ _ := iff_of_false Piece.not_at_nil fun h => Text.not_outerWordAt_nil h.1

/-- Text in which no word stands is kept. -/
theorem kept {s : Text} (h : Replaces stands rest ps)
    (hs : ∀ w n, OuterWordAt w n (s ++ rest) ↔ ∃ k, n = size s + k ∧ OuterWordAt w k rest) :
    Replaces stands (s ++ rest) (.kept s :: ps) where
  sources_eq := by rw [sources_cons, h.sources_eq, Piece.source]
  at_iff w out n := by
    rw [Piece.at_cons_iff, hs]
    simp [h.at_iff, Piece.source, ← and_assoc]

/-- A word that stands for nothing is kept. -/
theorem word (h : Replaces stands rest ps) (hw : IsWord w rest)
    (hnone : Text.isName w = true → stands w = none) :
    Replaces stands (w ++ rest) (.kept w :: ps) where
  sources_eq := by rw [sources_cons, h.sources_eq, Piece.source]
  at_iff w' out n := by
    rw [Piece.at_cons_iff, Text.outerWordAt_word hw]
    constructor
    · rintro (⟨hp, -⟩ | ⟨k, rfl, hk⟩)
      · cases hp
      · obtain ⟨hword, hout⟩ := (h.at_iff ..).mp hk
        exact ⟨.inr ⟨k, rfl, hword⟩, hout⟩
    · rintro ⟨⟨rfl, -, hname⟩ | ⟨k, rfl, hword⟩, hout⟩
      · rw [hnone hname] at hout
        cases hout
      · exact .inr ⟨k, rfl, (h.at_iff ..).mpr ⟨hword, hout⟩⟩

/-- A word that stands for something is replaced. -/
theorem replaced {out : Text} (h : Replaces stands rest ps) (hw : IsWord w rest)
    (hname : Text.isName w = true) (hout : stands w = some out) :
    Replaces stands (w ++ rest) (.replaced w out :: ps) where
  sources_eq := by rw [sources_cons, h.sources_eq, Piece.source]
  at_iff w' out' n := by
    rw [Piece.at_cons_iff, Text.outerWordAt_word hw]
    constructor
    · rintro (⟨hp, rfl⟩ | ⟨k, rfl, hk⟩)
      · cases hp
        exact ⟨.inl ⟨rfl, rfl, hname⟩, hout⟩
      · obtain ⟨hword, hout'⟩ := (h.at_iff ..).mp hk
        exact ⟨.inr ⟨k, rfl, hword⟩, hout'⟩
    · rintro ⟨⟨rfl, rfl, -⟩ | ⟨k, rfl, hword⟩, hout'⟩
      · cases hout.symm.trans hout'
        exact .inl ⟨rfl, rfl⟩
      · exact .inr ⟨k, rfl, (h.at_iff ..).mpr ⟨hword, hout'⟩⟩

end Replaces

/-! ### Segments -/

variable {params : Option (List String)} {w rest r : Text} {c : Char}

theorem segments_literal (params : Option (List String)) (r : Text) :
    segments params ('"' :: r) =
      consText ('"' :: (Quoted.split r).1) (segments params (Quoted.split r).2) := by
  rw [segments, if_pos (beq_self_eq_true _)]
  simp

theorem segments_word (hw : IsWord w rest) :
    segments params (w ++ rest) = (paramIndex? params w).elim
      (consText w (segments params rest)) fun i => .arg i :: segments params rest := by
  obtain ⟨c, w, rfl⟩ := List.exists_cons_of_ne_nil hw.ne_nil
  obtain ⟨hc, hchars⟩ := List.forall_mem_cons.mp hw.chars
  rw [List.cons_append, segments, if_neg (ne_quote_of_isNameChar hc), if_pos hc,
    Condition.takeWhile_append_of_head hchars hw.stop,
    Condition.dropWhile_append_of_head hchars hw.stop]
  · cases paramIndex? params (c :: w) <;> rfl
  -- A word does not start with a mark.
  · rintro r' rfl
    cases hc

theorem segments_mark (hq : c ≠ '"') (hc : isNameChar c = false) (hmark : c ≠ '#') :
    segments params (c :: r) = consChar c (segments params r) := by
  rw [segments, if_neg (by simpa using hq), if_neg (by simp [hc]), if_neg (by simpa using hmark)]
  exact fun _ heq => absurd heq hmark

/-- Text that is put in front is shown in front. -/
theorem render_consChar (raw expanded : List Text) (c : Char) (ss : List Segment) :
    render raw expanded (consChar c ss) = c :: render raw expanded ss := by
  unfold consChar
  split
  · split <;> rfl
  · rfl

theorem render_consText (raw expanded : List Text) (t : Text) (ss : List Segment) :
    render raw expanded (consText t ss) = t ++ render raw expanded ss := by
  induction t with
  | nil => rfl
  | cons c t ih => exact (render_consChar ..).trans (congrArg (c :: ·) ih)

/-- What holds of every text and of the segments holds with text in front of them. -/
theorem forall_mem_consChar {P : Segment → Prop} (htext : ∀ t, P (.text t)) {ss : List Segment}
    (h : ∀ s ∈ ss, P s) (c : Char) : ∀ s ∈ consChar c ss, P s := by
  unfold consChar
  split
  · split
    · exact List.forall_mem_cons.mpr ⟨htext _, (List.forall_mem_cons.mp h).2⟩
    · exact List.forall_mem_cons.mpr ⟨htext _, h⟩
  · exact List.forall_mem_cons.mpr ⟨htext _, h⟩

theorem forall_mem_consText {P : Segment → Prop} (htext : ∀ t, P (.text t)) {ss : List Segment}
    (h : ∀ s ∈ ss, P s) (t : Text) : ∀ s ∈ consText t ss, P s := by
  induction t with
  | nil => exact h
  | cons c t ih => exact forall_mem_consChar htext ih c

/-- What holds of texts and of marks, and of the arguments for the parameters, holds of all that a
replacement text is cut into. -/
theorem forall_mem_segments {P : Segment → Prop} (htext : ∀ t, P (.text t)) (hpaste : P .paste)
    (hparam : ∀ w i, paramIndex? params w = some i → P (.arg i) ∧ P (.quoted i)) (r : Text) :
    ∀ s ∈ segments params r, P s := by
  fun_induction segments params r with
  | case1 => exact List.forall_mem_nil _
  | case2 r ih => exact List.forall_mem_cons.mpr ⟨hpaste, ih⟩
  | case3 c r _ hc ih => exact forall_mem_consText htext ih _
  | case4 c r _ hq hc i hi ih => exact List.forall_mem_cons.mpr ⟨(hparam _ i hi).1, ih⟩
  | case5 c r _ hq hc hi ih => exact forall_mem_consText htext ih _
  | case6 c r _ hq hc hmark i hi ih => exact List.forall_mem_cons.mpr ⟨(hparam _ i hi).2, ih⟩
  | case7 c r _ hq hc hmark hi ih => exact forall_mem_consChar htext ih c
  | case8 c r _ hq hc hmark ih => exact forall_mem_consChar htext ih c

/-- Without a mark in the text, nothing is pasted. -/
theorem paste_notMem_segments (h : '#' ∉ r) : Segment.paste ∉ segments params r := by
  suffices hall : ∀ s ∈ segments params r, s ≠ .paste from fun hmem => hall _ hmem rfl
  have htext (t : Text) : Segment.text t ≠ .paste := by simp
  induction r using Text.item_induction with
  | nil =>
    rw [segments]
    exact List.forall_mem_nil _
  | literal r ih =>
    rw [segments_literal]
    refine forall_mem_consText htext (ih fun hmem => ?_) _
    exact h (List.mem_cons_of_mem _ ((Quoted.split_snd_suffix r).mem hmem))
  | word w rest hw ih =>
    have hrest := ih fun hmem => h (List.mem_append_right w hmem)
    rw [segments_word hw]
    cases paramIndex? params w with
    | none => exact forall_mem_consText htext hrest w
    | some i => exact List.forall_mem_cons.mpr ⟨by simp, hrest⟩
  | mark c r hq hc ih =>
    rw [List.mem_cons, not_or] at h
    rw [segments_mark hq hc (Ne.symm h.1)]
    exact forall_mem_consChar htext (ih h.2) c

/-- Where nothing is pasted, the segments stay as they are. -/
theorem markPasted_of_notMem {ss : List Segment} (h : Segment.paste ∉ ss) :
    markPasted false ss = ss := by
  have hfollows : ∀ {ss : List Segment}, Segment.paste ∉ ss → pasteFollows ss = false := by
    intro ss hss
    rw [pasteFollows, beq_eq_false_iff_ne]
    intro hhead
    exact hss ((List.dropWhile_suffix _).mem (List.mem_of_head? hhead))
  induction ss with
  | nil => rfl
  | cons s ss ih =>
    rw [List.mem_cons, not_or] at h
    rw [markPasted]
    · simp [hfollows h.2, ih h.2]
    · exact fun heq => h.1 heq.symm

/-! ### Parameters -/

/-- The argument that a word stands for: the one for the first parameter of that name. -/
def argument? (params : List String) (args : List Text) (w : Text) : Option Text :=
  (params.findIdx? (· == String.ofList w)).bind (args[·]?)

/-- A word that is no parameter stands for nothing. -/
theorem argument?_eq_none {args : List Text} (hname : Text.isName w = true)
    (h : paramIndex? params w = none) : argument? (params.getD []) args w = none := by
  rw [paramIndex?, if_pos hname] at h
  cases params with
  | none => rfl
  | some ps =>
    rw [argument?, Option.getD_some]
    rw [Option.bind_some] at h
    rw [h]
    rfl

/-- A word that is a parameter stands for its argument. -/
theorem argument?_of_paramIndex? {args : List Text} {i : Nat}
    (hlen : args.length = (params.getD []).length) (h : paramIndex? params w = some i) :
    Text.isName w = true ∧ argument? (params.getD []) args w = some (args.getD i []) := by
  rw [paramIndex?] at h
  split at h
  · next hname =>
    obtain ⟨ps, rfl, hfind⟩ := Option.bind_eq_some_iff.mp h
    obtain ⟨hi, -⟩ := List.findIdx?_eq_some_iff_getElem.mp hfind
    rw [Option.getD_some] at hlen ⊢
    refine ⟨hname, ?_⟩
    rw [argument?, hfind, Option.bind_some, List.getElem?_eq_getElem (by omega),
      List.getD_eq_getElem _ _ (by omega)]
  · cases h

/-- The segments of a text without marks show the text with its parameters replaced. -/
theorem exists_replaces_segments (params : Option (List String)) {text : Text}
    (htext : '#' ∉ text) (raw : List Text) {expanded : List Text}
    (hlen : expanded.length = (params.getD []).length) :
    ∃ ps, Replaces (argument? (params.getD []) expanded) text ps ∧
      flatten ps = render raw expanded (segments params text) := by
  induction text using Text.item_induction with
  | nil => exact ⟨[], .nil, by rw [segments]; rfl⟩
  | literal r ih =>
    have hrest : '#' ∉ (Quoted.split r).2 := fun hmem =>
      htext (List.mem_cons_of_mem _ ((Quoted.split_snd_suffix r).mem hmem))
    obtain ⟨ps, hps, hflat⟩ := ih hrest
    refine ⟨.kept ('"' :: (Quoted.split r).1) :: ps, ?_, ?_⟩
    · have hlit := hps.kept (s := '"' :: (Quoted.split r).1) fun w n => by
        rw [List.cons_append, Quoted.split_append]
        exact Text.outerWordAt_literal
      rwa [List.cons_append, Quoted.split_append] at hlit
    · rw [segments_literal, render_consText, ← hflat]
      rfl
  | word w rest hw ih =>
    obtain ⟨ps, hps, hflat⟩ := ih fun hmem => htext (List.mem_append_right w hmem)
    rw [segments_word hw]
    cases hi : paramIndex? params w with
    | none =>
      refine ⟨.kept w :: ps, hps.word hw fun hname => argument?_eq_none hname hi, ?_⟩
      rw [Option.elim_none, render_consText, ← hflat]
      rfl
    | some i =>
      obtain ⟨hname, hargument⟩ := argument?_of_paramIndex? hlen hi
      refine ⟨.replaced w (expanded.getD i []) :: ps, hps.replaced hw hname hargument, ?_⟩
      exact congrArg (expanded.getD i [] ++ ·) hflat
  | mark c r hq hc ih =>
    rw [List.mem_cons, not_or] at htext
    obtain ⟨ps, hps, hflat⟩ := ih htext.2
    refine ⟨.kept [c] :: ps, hps.kept (s := [c]) fun w n => ?_, ?_⟩
    · rw [Text.size_cons, Text.size_nil, Nat.add_zero]
      exact Text.outerWordAt_mark hq hc
    · rw [segments_mark hq hc (Ne.symm htext.1), render_consChar, ← hflat]
      rfl

/-- **The arguments are put in for all parameters at once.**  The replacement text, if it holds
no mark, is cut into pieces, of which those that are replaced are exactly the whole words outside
of literals that are parameters.  Each becomes the argument for the first parameter of its name,
where the last parameter may be named `...` in the definition and `__VA_ARGS__` in the text, and
all other pieces are kept. -/
theorem render_replaces {name : String} {params : Option (List String)} {body : Text} {m : Macro}
    (hm : ofDefinition? name params body = some m) (hbody : '#' ∉ body)
    (raw expanded : List Text) (hlen : expanded.length = (params.getD []).length) :
    ∃ ps : List Piece, sources ps = body ∧ flatten ps = render raw expanded m.body ∧
      ∀ w out n, (Piece.replaced w out).At n ps ↔
        Text.WordAt w n body ∧ Quoted.inside body n = false ∧
          argument? ((params.getD []).map paramName) expanded w = some out := by
  rw [ofDefinition?] at hm
  split at hm
  · cases hm
    have hnames : (params.map (List.map paramName)).getD [] = (params.getD []).map paramName := by
      cases params <;> rfl
    obtain ⟨ps, hps, hflat⟩ := exists_replaces_segments (params.map (List.map paramName))
      hbody raw (hlen.trans (by rw [hnames, List.length_map]))
    rw [hnames] at hps
    refine ⟨ps, hps.sources_eq, ?_, fun w out n => ?_⟩
    · rw [markPasted_of_notMem (paste_notMem_segments hbody), hflat]
    · rw [hps.at_iff, OuterWordAt, and_assoc]
  · cases hm

/-- A macro in whose text its parameters stand as words, in words and in a literal. -/
def mixed : Macro where
  name := "F"
  params := some ["x", "xy", "__VA_ARGS__"]
  variadic := true
  body := [.arg 0, .text ['+'], .arg 1, .text "(\"x\",1x,".toList, .arg 2, .text [')']]

/-- A parameter in an argument stays, as do those in other words and in literals. -/
theorem render_replaces_mixed :
    ofDefinition? "F" (some ["x", "xy", "..."]) "x+xy(\"x\",1x,__VA_ARGS__)".toList = some mixed ∧
      '#' ∉ "x+xy(\"x\",1x,__VA_ARGS__)".toList ∧
      ∃ ps : List Piece, sources ps = "x+xy(\"x\",1x,__VA_ARGS__)".toList ∧
        flatten ps = "xy+x(\"x\",1x,x,z)".toList ∧
        ∀ w out n, (Piece.replaced w out).At n ps ↔
          Text.WordAt w n "x+xy(\"x\",1x,__VA_ARGS__)".toList ∧
            Quoted.inside "x+xy(\"x\",1x,__VA_ARGS__)".toList n = false ∧
              argument? ["x", "xy", "__VA_ARGS__"] ["xy".toList, ['x'], "x,z".toList] w =
                some out := by
  have hm : ofDefinition? "F" (some ["x", "xy", "..."]) "x+xy(\"x\",1x,__VA_ARGS__)".toList =
      some mixed := by
    cbv
  have hbody : '#' ∉ "x+xy(\"x\",1x,__VA_ARGS__)".toList := by decide
  have hnames : ["x", "xy", "..."].map paramName = ["x", "xy", "__VA_ARGS__"] := by decide
  obtain ⟨ps, hsources, hflat, hat⟩ :=
    render_replaces hm hbody [] ["xy".toList, ['x'], "x,z".toList] rfl
  rw [Option.getD_some, hnames] at hat
  refine ⟨hm, hbody, ps, hsources, hflat.trans ?_, hat⟩
  decide

end PixelWrap.Macro
