import PixelWrap.Proofs.Identity

/-!
# Macros that do not come back to themselves

A macro is not replaced inside of its own replacement, and its name is left there.  If macros
without parameters do not come back to themselves, that never happens, and no name of a macro is
left at all.

The ranks of the macros show that they do not come back.  While a replacement text is read, the
names in it have smaller ranks than all the macros that are disabled, and so each of them is
replaced.  Replacements do not run together with the text around them: a name is a whole word, so
that no other word starts right behind it, and without a quote in it, a replacement does not open
a literal.

## Main definitions

* `Macro.Table.Free`: no word outside of literals is the name of a macro.
* `Macro.Table.Acyclic`: a rank for macros without parameters that do not come back to themselves.
* `Macro.Table.Unfolds`: what a text becomes if each name of a macro is replaced.
* `Macro.Table.Expands`: what holds of a text and what becomes of it.
* `Macro.Table.Below`: the names in a text have smaller ranks than the disabled macros.

## Main results

* `Macro.expand_of_free`: **a text without names of macros stays as it is.**
* `Macro.Table.Acyclic.expands_of_unfolds`: no name of a macro is left in a text that is unfolded.
* `Macro.Table.Acyclic.exists_unfolds`: a text is unfolded while some macros are disabled.
* `Macro.expand_acyclic`: **macros that do not come back to themselves are replaced until none is
  left.**
-/

namespace PixelWrap.Macro

open Text (outerWords)

variable {t : Table} {disabled : List String}

/-! ### Texts without names of macros -/

theorem enabled?_ne_none {w : Text} (hname : Text.isName w = true)
    (hdefined : t.isDefined (String.ofList w) = true) (hmem : String.ofList w ∉ disabled) :
    t.enabled? disabled w ≠ none := by
  obtain ⟨m, hm⟩ := Option.isSome_iff_exists.mp hdefined
  rw [← String.toList_ofList (l := w)] at hname
  obtain ⟨e, he, -⟩ := enabled?_of_find? hm hname hmem
  rw [String.toList_ofList] at he
  simp [he]

/-- No word outside of literals is the name of a macro. -/
def Table.Free (t : Table) (text : Text) : Prop :=
  ∀ w ∈ outerWords text, Text.isName w = true → t.isDefined (String.ofList w) = false

theorem settled_of_free {text : Text} (h : t.Free text) : t.Settled disabled text := by
  intro before w after _ hw m hfind _
  have hnot := h w (Text.mem_outerWords_of_wordAt hw.1 hw.2) hw.1.isName
  rw [Table.isDefined, hfind] at hnot
  cases hnot

/-- **A text without names of macros stays as it is.** -/
theorem expand_of_free {text : Text} (h : t.Free text) : t.expand text = .ok text :=
  expandUnder_of_settled (settled_of_free h) nofun

/-! ### Macros without parameters -/

/-- The macros have no parameters, their replacement texts have no quotes, and each name of a
macro in one of them has a smaller rank than the macro. -/
structure Table.Acyclic (t : Table) (rank : String → Nat) : Prop where
  params_eq_none {name : String} {m : Macro} : t.find? name = some m → m.params = none
  quote_notMem {name : String} {m : Macro} : t.find? name = some m → '"' ∉ render [] [] m.body
  rank_lt {name : String} {m : Macro} {w : Text} {n : Nat} : t.find? name = some m →
    Text.WordAt w n (render [] [] m.body) → t.isDefined (String.ofList w) = true →
    rank (String.ofList w) < rank name

variable {rank : String → Nat}

/-- There is nothing to go on with. -/
theorem Table.Acyclic.answer_resume (h : t.Acyclic rank) (origin : String) (output rest : Text) :
    (Task.resume origin output rest : Task t disabled).answer = .ok (output, rest) := by
  refine answer_resume_eq_ok_iff.mpr (.inl ⟨rfl, fun m he hm _ => ?_⟩)
  rw [isFunctionLike, h.params_eq_none (enabled?_eq_some_iff.mp he).1] at hm
  cases hm

/-- A use becomes what its replacement text becomes. -/
theorem Table.Acyclic.expandUnder_use (h : t.Acyclic rank) {w rest : Text}
    {m : Enabled t disabled} (hw : IsWord w rest) (he : t.enabled? disabled w = some m) :
    t.expandUnder disabled (w ++ rest) =
      (t.expandUnder (m.val.name :: disabled) (render [] [] m.val.body)).bind fun u =>
        (t.expandUnder disabled rest).map (u ++ ·) := by
  have hp := h.params_eq_none (enabled?_eq_some_iff.mp he).1
  rw [expandUnder_of_params_none hw he hp]
  simp only [h.answer_resume, Except.bind]

/-- What a text becomes if each name of a macro outside of literals is replaced by what its
replacement text becomes, whatever it is a part of. -/
inductive Table.Unfolds (t : Table) : Text → Text → Prop
  | nil : Unfolds t [] []
  | literal {r out : Text} : Unfolds t (Quoted.split r).2 out →
      Unfolds t ('"' :: r) ('"' :: (Quoted.split r).1 ++ out)
  /-- A word that is not the name of a macro. -/
  | word {w rest out : Text} : IsWord w rest →
      (Text.isName w = true → t.isDefined (String.ofList w) = false) → Unfolds t rest out →
      Unfolds t (w ++ rest) (w ++ out)
  | use {w rest u out : Text} {m : Macro} : IsWord w rest → Text.isName w = true →
      t.find? (String.ofList w) = some m → Unfolds t (render [] [] m.body) u →
      Unfolds t rest out → Unfolds t (w ++ rest) (u ++ out)
  | mark {c : Char} {r out : Text} : c ≠ '"' → isNameChar c = false → Unfolds t r out →
      Unfolds t (c :: r) (c :: out)

/-- No name of a macro is left, no quote comes in, and a text that does not start in a name
starts as before. -/
structure Table.Expands (t : Table) (text out : Text) : Prop where
  free : t.Free out
  quote_notMem : '"' ∉ text → '"' ∉ out
  head?_eq : startsInName text = false → out.head? = text.head?

/-- The names of macros in the text have smaller ranks than those that are disabled. -/
def Table.Below (t : Table) (rank : String → Nat) (disabled : List String) (text : Text) : Prop :=
  ∀ w ∈ outerWords text, Text.isName w = true → t.isDefined (String.ofList w) = true →
    ∀ d ∈ disabled, rank (String.ofList w) < rank d

section Expands

variable {w rest out u : Text}

theorem Table.Expands.literal {r : Text} (h : t.Expands (Quoted.split r).2 out) :
    t.Expands ('"' :: r) ('"' :: (Quoted.split r).1 ++ out) where
  free := by
    rw [Table.Free, Text.outerWords_literal h.head?_eq]
    exact h.free
  quote_notMem := fun hq => absurd (List.mem_cons_self ..) hq
  head?_eq := fun _ => rfl

theorem Table.Expands.mark {c : Char} {r : Text} (h : t.Expands r out) (hq : c ≠ '"')
    (hc : isNameChar c = false) : t.Expands (c :: r) (c :: out) where
  free := by
    rw [Table.Free, Text.outerWords_mark hq hc]
    exact h.free
  quote_notMem := by
    simp only [List.mem_cons, not_or]
    exact fun hr => ⟨hr.1, h.quote_notMem hr.2⟩
  head?_eq := fun _ => rfl

theorem Table.Expands.word (h : t.Expands rest out) (hw : IsWord w rest)
    (hfree : Text.isName w = true → t.isDefined (String.ofList w) = false) :
    t.Expands (w ++ rest) (w ++ out) where
  free := by
    have hout := hw.of_head? (h.head?_eq hw.startsInName_rest)
    rw [Table.Free, Text.outerWords_word hout]
    exact List.forall_mem_cons.mpr ⟨hfree, h.free⟩
  quote_notMem := by
    simp only [List.mem_append, not_or]
    exact fun hr => ⟨hr.1, h.quote_notMem hr.2⟩
  head?_eq := fun hstart => by
    rw [hw.startsInName] at hstart
    cases hstart

theorem Table.Expands.use {body : Text} (h : t.Expands rest out) (hw : IsWord w rest)
    (hbody : '"' ∉ body) (hu : t.Expands body u) : t.Expands (w ++ rest) (u ++ out) where
  free := by
    have hout : startsInName out = false :=
      (hw.of_head? (h.head?_eq hw.startsInName_rest)).startsInName_rest
    rw [Table.Free, Text.outerWords_append (hu.quote_notMem hbody) hout]
    exact List.forall_mem_append.mpr ⟨hu.free, h.free⟩
  quote_notMem := by
    simp only [List.mem_append, not_or]
    exact fun hr => ⟨hu.quote_notMem hbody, h.quote_notMem hr.2⟩
  head?_eq := fun hstart => by
    rw [hw.startsInName] at hstart
    cases hstart

end Expands

/-- **No name of a macro is left in a text that is unfolded.** -/
theorem Table.Acyclic.expands_of_unfolds (h : t.Acyclic rank) {text out : Text}
    (hout : t.Unfolds text out) : t.Expands text out := by
  induction hout with
  | nil =>
    refine ⟨?_, id, fun _ => rfl⟩
    rw [Table.Free, outerWords]
    exact List.forall_mem_nil _
  | literal _ ih => exact ih.literal
  | word hw hfree _ ih => exact ih.word hw hfree
  | use hw _ hfind _ _ ihu ih => exact ih.use hw (h.quote_notMem hfind) ihu
  | mark hq hc _ ih => exact ih.mark hq hc

/-- The replacement text of a macro lies below the macro, and below all that the macro lies
below. -/
theorem Table.Acyclic.below_body (h : t.Acyclic rank) {name : String} {m : Macro}
    (hfind : t.find? name = some m) (hname : ∀ d ∈ disabled, rank name < rank d) :
    t.Below rank (name :: disabled) (render [] [] m.body) := by
  intro w hw hwname hdefined
  obtain ⟨n, hn, -⟩ := (Text.mem_outerWords_iff hwname).mp hw
  have hlt := h.rank_lt hfind hn hdefined
  exact List.forall_mem_cons.mpr ⟨hlt, fun d hd => hlt.trans (hname d hd)⟩

/-- **All macros are replaced**, whatever the text is, as long as those that are disabled have
larger ranks. -/
theorem Table.Acyclic.exists_unfolds (h : t.Acyclic rank) {text : Text}
    (hbelow : t.Below rank disabled text) :
    ∃ out, t.expandUnder disabled text = .ok out ∧ t.Unfolds text out := by
  -- A replacement text is read with one macro less, and the rest of the text with the same ones.
  induction hn : enabledCount t disabled using Nat.strongRecOn generalizing disabled text with
  | ind n ih =>
    subst hn
    induction text using Text.item_induction with
    | nil => exact ⟨[], expandUnder_empty, .nil⟩
    | literal r ihr =>
      rw [Table.Below, outerWords, if_pos (beq_self_eq_true _)] at hbelow
      obtain ⟨out, hout, hunfolds⟩ := ihr hbelow
      refine ⟨_, ?_, .literal hunfolds⟩
      rw [(Step.literal r).expandUnder_eq, hout]
      rfl
    | word w rest hw ihr =>
      rw [Table.Below, Text.outerWords_word hw, List.forall_mem_cons] at hbelow
      obtain ⟨hfirst, hrest⟩ := hbelow
      obtain ⟨out, hout, hunfolds⟩ := ihr hrest
      cases he : t.enabled? disabled w with
      | none =>
        have hstep : Step t disabled (w ++ rest) (.kept w) rest := .word hw (by simp [he])
        have hkept : t.expandUnder disabled (w ++ rest) = .ok (w ++ out) := by
          rw [hstep.expandUnder_eq, hout]
          rfl
        refine ⟨w ++ out, hkept, .word hw (fun hname => ?_) hunfolds⟩
        -- A macro that is disabled would have to have a smaller rank than itself.
        rw [Bool.eq_false_iff]
        intro hdefined
        exact absurd he (enabled?_ne_none hname hdefined fun hmem =>
          Nat.lt_irrefl _ (hfirst hname hdefined _ hmem))
      | some m =>
        obtain ⟨hfind, hname⟩ := enabled?_eq_some_iff.mp he
        have hdefined : t.isDefined (String.ofList w) = true := by rw [Table.isDefined, hfind]; rfl
        have hbody := h.below_body hfind (hfirst hname hdefined)
        rw [← (Table.find?_eq_some hfind).2] at hbody
        obtain ⟨u, hu, hbodyUnfolds⟩ := ih _ (enabledCount_cons_lt m) hbody rfl
        refine ⟨u ++ out, ?_, .use hw hname hfind hbodyUnfolds hunfolds⟩
        rw [h.expandUnder_use hw he, hu, hout]
        rfl
    | mark c r hq hc ihr =>
      rw [Table.Below, Text.outerWords_mark hq hc] at hbelow
      obtain ⟨out, hout, hunfolds⟩ := ihr hbelow
      refine ⟨_, ?_, .mark hq hc hunfolds⟩
      rw [(Step.mark r hq hc).expandUnder_eq, hout]
      rfl

/-- Ranks can be checked on the words of the replacement texts. -/
theorem acyclic_of_outerWords (h : ∀ m ∈ t.entries, m.params = none ∧
      '"' ∉ render [] [] m.body ∧ ∀ w ∈ outerWords (render [] [] m.body),
        t.isDefined (String.ofList w) = true → rank (String.ofList w) < rank m.name) :
    t.Acyclic rank where
  params_eq_none hfind := (h _ (Table.find?_eq_some hfind).1).1
  quote_notMem hfind := (h _ (Table.find?_eq_some hfind).1).2.1
  rank_lt := by
    intro name m w n hfind hw hdefined
    obtain ⟨hmem, rfl⟩ := Table.find?_eq_some hfind
    obtain ⟨-, hquote, hrank⟩ := h m hmem
    exact hrank w (Text.mem_outerWords_of_wordAt hw (Quoted.inside_of_notMem hquote n)) hdefined

/-- **Macros without parameters that do not come back to themselves are replaced until none is
left.**  The text is unfolded, so that no name of a macro stands in the outcome as a whole word
outside of literals, and reading the outcome again changes nothing. -/
theorem expand_acyclic (t : Table) (rank : String → Nat) (h : t.Acyclic rank) (text : Text) :
    ∃ out, t.expand text = .ok out ∧ t.Unfolds text out ∧
      (∀ w n, Text.WordAt w n out → Quoted.inside out n = false →
        t.isDefined (String.ofList w) = false) ∧
      t.expand out = .ok out := by
  have hbelow : t.Below rank [] text := nofun
  obtain ⟨out, hout, hunfolds⟩ := h.exists_unfolds hbelow
  have hfree := (h.expands_of_unfolds hunfolds).free
  refine ⟨out, hout, hunfolds, fun w n hw hn => ?_, expand_of_free hfree⟩
  exact hfree w (Text.mem_outerWords_of_wordAt hw hn) hw.isName

/-- Three macros, of which each stands for those behind it. -/
def sumTable : Table :=
  ⟨[⟨"A", none, false, [.text "B+C".toList]⟩, ⟨"B", none, false, [.text ['C']]⟩,
    ⟨"C", none, false, [.text ['1']]⟩]⟩

def sumRank (name : String) : Nat := if name = "A" then 2 else if name = "B" then 1 else 0

/-- A name in a literal is left, and the others are replaced. -/
theorem expand_acyclic_sumTable :
    sumTable.Acyclic sumRank ∧ sumTable.expand "A\"A\"B".toList = .ok "1+1\"A\"1".toList ∧
      ∃ out, sumTable.expand "A\"A\"B".toList = .ok out ∧
        sumTable.Unfolds "A\"A\"B".toList out ∧
        (∀ w n, Text.WordAt w n out → Quoted.inside out n = false →
          sumTable.isDefined (String.ofList w) = false) ∧
        sumTable.expand out = .ok out := by
  have hsum : outerWords "B+C".toList = [['B'], ['C']] := by cbv
  have hname : outerWords ['C'] = [['C']] := by cbv
  have hdigit : outerWords ['1'] = [['1']] := by cbv
  have hacyclic : sumTable.Acyclic sumRank := by
    refine acyclic_of_outerWords (List.forall_mem_cons.mpr ⟨⟨rfl, by decide, ?_⟩,
      List.forall_mem_cons.mpr ⟨⟨rfl, by decide, ?_⟩,
        List.forall_mem_cons.mpr ⟨⟨rfl, by decide, ?_⟩, List.forall_mem_nil _⟩⟩⟩)
    · show ∀ w ∈ outerWords "B+C".toList, _
      rw [hsum]
      decide
    · show ∀ w ∈ outerWords ['C'], _
      rw [hname]
      decide
    · show ∀ w ∈ outerWords ['1'], _
      rw [hdigit]
      decide
  exact ⟨hacyclic, by cbv, expand_acyclic sumTable sumRank hacyclic _⟩

end PixelWrap.Macro
