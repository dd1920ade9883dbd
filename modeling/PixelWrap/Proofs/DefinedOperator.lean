import PixelWrap.Condition.Defined
import PixelWrap.Proofs.Occurrences
import PixelWrap.Proofs.Words

/-!
# The operator `defined`, word by word

A condition is a row of words and of marks between them.  The word `defined` is an operator,
and a longer word that only contains it is not.  The text of a condition is not cut into words
first, though: occurrences of `defined` are looked for one after the other, and whether one of
them is a word as a whole is judged from the text behind the occurrence before it.  What the
search has passed over does not count any more.  So the two ways agree only if no word ends in
two occurrences right behind each other.

## Main definitions

* `Condition.Run`, `Condition.runs`: the words and marks of a text.
* `Condition.operandRun?`: the operand that follows the operator.
* `Condition.resolveRuns?`: replaces each use of `defined`, word by word.

## Main results

* `Condition.operandRun?_runs`: both ways read the same operand.
* `Condition.resolveRuns?_append`: what holds no operator is copied.
* `Condition.resolveDefined?_eq_resolveRuns?`: **`defined` is resolved per whole word**, if no
  word ends in `defineddefined`.
-/

namespace PixelWrap

open Macro (startsInName endsInName)

namespace Condition

/-! ### Words and marks -/

/-- A word, or a single character that belongs to none. -/
inductive Run where
  /-- A run of letters, digits and underscores that is as long as possible. -/
  | word (w : Text)
  /-- Any other character. -/
  | mark (c : Char)
  deriving DecidableEq, Repr

/-- The characters of a run. -/
def Run.text : Run → Text
  | .word w => w
  | .mark c => [c]

/-- The words and marks of a text. -/
def runs : Text → List Run
  | [] => []
  | c :: r =>
    if isNameChar c then .word (c :: r.takeWhile isNameChar) :: runs (r.dropWhile isNameChar)
    else .mark c :: runs r
termination_by t => t.length
decreasing_by
  · exact Nat.lt_succ_of_le (List.dropWhile_suffix _).length_le
  · exact Nat.lt_succ_self _

/-- The runs without the white space at their start. -/
def skipSpace : List Run → List Run
  | .mark c :: rs => if isSpace c then skipSpace rs else .mark c :: rs
  | rs => rs

/-- The word that the runs start with, if it is a name, and the runs behind it. -/
def nameRun? : List Run → Option (Text × List Run)
  | .word w :: rs => if Text.isName w then some (w, rs) else none
  | _ => none

/-- The operand that the runs start with, a name that may stand in parentheses, and the runs
behind it. -/
def operandRun? (rs : List Run) : Option (Text × List Run) :=
  match skipSpace rs with
  | .mark '(' :: inner => do
    let (name, rest) ← nameRun? (skipSpace inner)
    match skipSpace rest with
    | .mark ')' :: after => some (name, after)
    | _ => none
  | rs => nameRun? rs

theorem skipSpace_suffix (rs : List Run) : skipSpace rs <:+ rs := by
  fun_induction skipSpace rs with
  | case1 c rs _ ih => exact ih.trans (List.suffix_cons _ _)
  | case2 => exact List.suffix_rfl
  | case3 => exact List.suffix_rfl

theorem nameRun?_suffix {rs rest : List Run} {name : Text}
    (h : nameRun? rs = some (name, rest)) : rest <:+ rs := by
  unfold nameRun? at h
  split at h
  · split at h
    · cases h
      exact List.suffix_cons _ _
    · cases h
  · cases h

/-- The runs behind an operand end the runs that it was read from. -/
theorem operandRun?_suffix {rs rest : List Run} {name : Text}
    (h : operandRun? rs = some (name, rest)) : rest <:+ rs := by
  unfold operandRun? at h
  split at h
  · next inner hinner =>
    obtain ⟨⟨n, r⟩, hname, h⟩ := Option.bind_eq_some_iff.mp h
    simp only at h
    split at h
    · next hrest =>
      cases h
      calc rest <:+ skipSpace r := hrest ▸ List.suffix_cons _ _
        _ <:+ r := skipSpace_suffix r
        _ <:+ skipSpace inner := nameRun?_suffix hname
        _ <:+ inner := skipSpace_suffix inner
        _ <:+ skipSpace rs := hinner ▸ List.suffix_cons _ _
        _ <:+ rs := skipSpace_suffix rs
    · cases h
  · exact (nameRun?_suffix h).trans (skipSpace_suffix rs)

/-- Replaces each word `defined` together with its operand by `1` or `0`, and copies all other
words and all marks; `none` if a `defined` has no operand. -/
def resolveRuns? (isDefined : String → Bool) : List Run → Option Text
  | [] => some []
  | .mark c :: rs => (resolveRuns? isDefined rs).map (c :: ·)
  | .word w :: rs =>
    if w = definedWord then
      match _h : operandRun? rs with
      | none => none
      | some (name, rest) =>
        (resolveRuns? isDefined rest).map
          ((if isDefined (String.ofList name) then '1' else '0') :: ·)
    else (resolveRuns? isDefined rs).map (w ++ ·)
termination_by rs => rs.length
decreasing_by
  · exact Nat.lt_succ_self _
  · exact Nat.lt_succ_of_le (operandRun?_suffix _h).length_le
  · exact Nat.lt_succ_self _

/-! ### The runs of a text -/

theorem runs_cons_of_isNameChar {c : Char} (hc : isNameChar c = true) (r : Text) :
    runs (c :: r) = .word (c :: r.takeWhile isNameChar) :: runs (r.dropWhile isNameChar) := by
  rw [runs, if_pos hc]

theorem runs_cons_of_eq_false {c : Char} (hc : isNameChar c = false) (r : Text) :
    runs (c :: r) = .mark c :: runs r := by
  rw [runs, if_neg (by simp [hc])]

/-- A text is made up of its runs. -/
theorem flatMap_text_runs (t : Text) : (runs t).flatMap Run.text = t := by
  fun_induction runs t with
  | case1 => rfl
  | case2 c r _ ih =>
    rw [List.flatMap_cons, ih, Run.text, List.cons_append, List.takeWhile_append_dropWhile]
  | case3 c r _ ih =>
    rw [List.flatMap_cons, ih]
    rfl

theorem exists_of_word_mem_runs {t w : Text} (h : .word w ∈ runs t) : ∃ p q, t = p ++ w ++ q := by
  obtain ⟨rs, rs', hrs⟩ := List.append_of_mem h
  refine ⟨rs.flatMap Run.text, rs'.flatMap Run.text, ?_⟩
  rw [← flatMap_text_runs t, hrs, List.flatMap_append, List.flatMap_cons, List.append_assoc]
  rfl

/-- A text that is one word. -/
theorem runs_of_forall {w : Text} (hne : w ≠ []) (hw : ∀ c ∈ w, isNameChar c = true) :
    runs w = [.word w] := by
  obtain ⟨c, r, rfl⟩ := List.exists_cons_of_ne_nil hne
  obtain ⟨hc, hr⟩ := List.forall_mem_cons.mp hw
  rw [runs_cons_of_isNameChar hc, List.takeWhile_eq_self_iff.mpr hr,
    List.dropWhile_eq_nil_iff.mpr hr, runs]

/-- **A text that is cut between words has the runs of both parts.** -/
theorem runs_append {u v : Text} (h : endsInName u = false ∨ startsInName v = false) :
    runs (u ++ v) = runs u ++ runs v := by
  fun_induction runs u with
  | case1 => rfl
  | case2 c r hc ih =>
    have htake : (r ++ v).takeWhile isNameChar = r.takeWhile isNameChar := by
      have hcons := takeWhile_append_of_border v (List.cons_ne_nil c r) h
      rw [List.cons_append, List.takeWhile_cons_of_pos hc, List.takeWhile_cons_of_pos hc] at hcons
      exact (List.cons.inj hcons).2
    have hdrop : (r ++ v).dropWhile isNameChar = r.dropWhile isNameChar ++ v := by
      have happend : r.takeWhile isNameChar ++ (r ++ v).dropWhile isNameChar =
          r.takeWhile isNameChar ++ (r.dropWhile isNameChar ++ v) := by
        rw [← List.append_assoc, List.takeWhile_append_dropWhile, ← htake,
          List.takeWhile_append_dropWhile]
      exact List.append_cancel_left happend
    have hends : endsInName (c :: r) = false → endsInName (r.dropWhile isNameChar) = false := by
      intro hcr
      apply Macro.endsInName_of_append (s := c :: r.takeWhile isNameChar)
      rwa [List.cons_append, List.takeWhile_append_dropWhile]
    rw [List.cons_append, runs_cons_of_isNameChar hc, htake, hdrop, ih (h.imp_left hends)]
    rfl
  | case3 c r hc ih =>
    have hends : endsInName (c :: r) = false → endsInName r = false :=
      Macro.endsInName_of_append (s := [c])
    rw [List.cons_append, runs_cons_of_eq_false (by simpa using hc), ih (h.imp_left hends)]
    rfl

/-- The word that a text ends with, and what stands in front of it. -/
theorem exists_trailing_word (u : Text) :
    ∃ b x, u = b ++ x ∧ endsInName b = false ∧ ∀ c ∈ x, isNameChar c = true := by
  induction u using List.reverseRecOn with
  | nil => exact ⟨[], [], rfl, rfl, nofun⟩
  | append_singleton u c ih =>
    by_cases hc : isNameChar c = true
    · obtain ⟨b, x, rfl, hb, hx⟩ := ih
      refine ⟨b, x ++ [c], List.append_assoc .., hb, fun d hd => ?_⟩
      rcases List.mem_append.mp hd with hd | hd
      · exact hx d hd
      · rwa [List.mem_singleton.mp hd]
    · refine ⟨u ++ [c], [], (List.append_nil _).symm, ?_, nofun⟩
      rw [Macro.endsInName_concat]
      simpa using hc

/-! ### Operands -/

theorem skipSpace_runs (t : Text) : skipSpace (runs t) = runs (Text.trimStart t) := by
  induction t with
  | nil =>
    rw [Text.trimStart, List.dropWhile_nil, runs, skipSpace]
    intro c r h
    cases h
  | cons c r ih =>
    rw [Text.trimStart]
    by_cases hc : isNameChar c = true
    · have hspace := isSpace_of_isNameChar hc
      rw [List.dropWhile_cons_of_neg (by simp [hspace]), runs_cons_of_isNameChar hc, skipSpace]
      intro c r h
      cases h
    · rw [runs_cons_of_eq_false (by simpa using hc), skipSpace]
      split
      · next hspace => rw [List.dropWhile_cons_of_pos hspace, ih, Text.trimStart]
      · next hspace =>
        rw [List.dropWhile_cons_of_neg hspace, runs_cons_of_eq_false (by simpa using hc)]

theorem nameRun?_runs (t : Text) :
    nameRun? (runs t) =
      if (Text.splitName t).1.isEmpty then none
      else some ((Text.splitName t).1, runs (Text.splitName t).2) := by
  cases t with
  | nil => rw [runs]; rfl
  | cons c r =>
    rw [Text.splitName]
    by_cases hstart : isNameStart c = true
    · have hname : Text.isName (c :: r.takeWhile isNameChar) = true :=
        isName_cons_iff.mpr ⟨hstart, fun _ => List.mem_takeWhile_imp⟩
      rw [if_pos hstart, runs_cons_of_isNameChar (isNameChar_of_isNameStart hstart), nameRun?,
        if_pos hname]
      rfl
    · rw [if_neg hstart]
      by_cases hc : isNameChar c = true
      · have hname : ¬Text.isName (c :: r.takeWhile isNameChar) = true := by
          intro hname
          exact hstart (isName_cons_iff.mp hname).1
        rw [runs_cons_of_isNameChar hc, nameRun?, if_neg hname]
        rfl
      · rw [runs_cons_of_eq_false (by simpa using hc)]
        rfl

/-- The runs of a text start with a mark just if the text does. -/
theorem runs_eq_mark_iff {c : Char} (hc : isNameChar c = false) {t : Text} {rs : List Run} :
    runs t = .mark c :: rs ↔ ∃ r, t = c :: r ∧ rs = runs r := by
  constructor
  · intro h
    cases t with
    | nil =>
      rw [runs] at h
      cases h
    | cons d r =>
      by_cases hd : isNameChar d = true
      · rw [runs_cons_of_isNameChar hd] at h
        cases h
      · rw [runs_cons_of_eq_false (by simpa using hd)] at h
        cases h
        exact ⟨r, rfl, rfl⟩
  · rintro ⟨r, rfl, rfl⟩
    exact runs_cons_of_eq_false hc r

/-- An operand in parentheses. -/
theorem operand?_of_paren {t inner : Text} (h : Text.trimStart t = '(' :: inner) :
    operand? t =
      match Text.trimStart (Text.splitName (Text.trimStart inner)).2 with
      | ')' :: after =>
        if (Text.splitName (Text.trimStart inner)).1.isEmpty then none
        else some ((Text.splitName (Text.trimStart inner)).1, after)
      | _ => none := by
  rw [operand?, h]
  rfl

/-- An operand without parentheses. -/
theorem operand?_of_ne {t : Text} (h : ∀ inner, Text.trimStart t ≠ '(' :: inner) :
    operand? t =
      if (Text.splitName (Text.trimStart t)).1.isEmpty then none
      else some (Text.splitName (Text.trimStart t)) := by
  unfold operand?
  split
  · next inner hinner => exact absurd hinner (h inner)
  · rfl

/-- **Both ways read the same operand.** -/
theorem operandRun?_runs (t : Text) :
    operandRun? (runs t) = (operand? t).map fun p => (p.1, runs p.2) := by
  have hparen : isNameChar '(' = false ∧ isNameChar ')' = false := by decide
  rw [operandRun?, skipSpace_runs]
  split
  · next hopen =>
    obtain ⟨inner, ht, rfl⟩ := (runs_eq_mark_iff hparen.1).mp hopen
    rw [operand?_of_paren ht, skipSpace_runs, nameRun?_runs]
    by_cases hname : (Text.splitName (Text.trimStart inner)).1.isEmpty = true
    · simp only [if_pos hname]
      split <;> rfl
    · simp only [if_neg hname, Option.bind_eq_bind, Option.bind_some, skipSpace_runs]
      split
      · next hclose =>
        obtain ⟨after, hrest, rfl⟩ := (runs_eq_mark_iff hparen.2).mp hclose
        rw [hrest]
        rfl
      · next hclose =>
        split
        · next after hrest =>
          exact absurd ((runs_eq_mark_iff hparen.2).mpr ⟨after, hrest, rfl⟩) (hclose _)
        · rfl
  · next hopen =>
    have hne : ∀ inner, Text.trimStart t ≠ '(' :: inner := by
      intro inner ht
      exact hopen _ ((runs_eq_mark_iff hparen.1).mpr ⟨inner, ht, rfl⟩)
    rw [operand?_of_ne hne, nameRun?_runs]
    split <;> rfl

/-! ### Replacing the operator -/

variable {isDefined : String → Bool}

/-- Words and marks among which there is no operator are copied. -/
theorem resolveRuns?_append {rs : List Run} (h : .word definedWord ∉ rs) (rs' : List Run) :
    resolveRuns? isDefined (rs ++ rs') =
      (resolveRuns? isDefined rs').map (rs.flatMap Run.text ++ ·) := by
  induction rs with
  | nil => simp
  | cons r rs ih =>
    simp only [List.mem_cons, not_or] at h
    obtain ⟨hr, hrs⟩ := h
    cases r with
    | word w =>
      have hw : w ≠ definedWord := fun hw => hr (congrArg Run.word hw.symm)
      rw [List.cons_append, resolveRuns?, if_neg hw, ih hrs, Option.map_map]
      simp [Function.comp_def, Run.text]
    | mark c =>
      rw [List.cons_append, resolveRuns?, ih hrs, Option.map_map]
      simp [Function.comp_def, Run.text]

/-- No word of the text ends in two occurrences of `defined`. -/
def Undoubled (t : Text) : Prop :=
  ∀ w, .word w ∈ runs t → ¬definedWord ++ definedWord <:+ w

section Occurrence

variable {before after : Text}

/-- In front of the first occurrence there is no operator. -/
theorem not_mem_runs_of_cut? {b x : Text}
    (hcut : Text.cut? definedWord (before ++ definedWord ++ after) = some (before, after))
    (hb : before = b ++ x) : .word definedWord ∉ runs b := by
  intro hmem
  obtain ⟨p, q, hpq⟩ := exists_of_word_mem_runs hmem
  have hle := Text.length_le_of_cut? (p := p) (q := q ++ x ++ definedWord ++ after) hcut
    (by rw [hb, hpq]; simp)
  have hlength : definedWord.length = 7 := rfl
  rw [hb, hpq] at hle
  simp only [List.length_append] at hle
  omega

/-- The word that an occurrence belongs to, and the words and marks around it. -/
theorem exists_runs_eq (before after : Text) :
    ∃ b x, before = b ++ x ∧ endsInName b = false ∧
      runs (before ++ definedWord ++ after) =
        runs b ++ .word (x ++ definedWord ++ after.takeWhile isNameChar) ::
          runs (after.dropWhile isNameChar) := by
  obtain ⟨b, x, rfl, hb, hx⟩ := exists_trailing_word before
  refine ⟨b, x, rfl, hb, ?_⟩
  have hword : ∀ c ∈ x ++ definedWord ++ after.takeWhile isNameChar, isNameChar c = true := by
    intro c hc
    rcases List.mem_append.mp hc with hc | hc
    · rcases List.mem_append.mp hc with hc | hc
      · exact hx c hc
      · exact (List.all_eq_true.mp (by decide : definedWord.all isNameChar = true)) c hc
    · exact List.mem_takeWhile_imp hc
  have hne : x ++ definedWord ++ after.takeWhile isNameChar ≠ [] := by
    simp [definedWord]
  have happend : b ++ x ++ definedWord ++ after =
      b ++ (x ++ definedWord ++ after.takeWhile isNameChar ++ after.dropWhile isNameChar) := by
    simp
  rw [happend, runs_append (.inl hb), runs_append (.inr (Macro.startsInName_dropWhile after)),
    runs_of_forall hne hword]
  rfl

/-- The words and marks of the text behind an occurrence start with the rest of the word. -/
theorem runs_after (after : Text) :
    runs after = runs (after.takeWhile isNameChar) ++ runs (after.dropWhile isNameChar) := by
  rw [← runs_append (.inr (Macro.startsInName_dropWhile after)),
    List.takeWhile_append_dropWhile]

theorem eq_of_mem_runs_takeWhile {w : Text}
    (h : .word w ∈ runs (after.takeWhile isNameChar)) : w = after.takeWhile isNameChar := by
  by_cases hne : after.takeWhile isNameChar = []
  · rw [hne, runs] at h
    cases h
  · rw [runs_of_forall hne fun _ => List.mem_takeWhile_imp, List.mem_singleton] at h
    exact Run.word.inj h

/-- Behind an occurrence, the rest of its word ends as the word does. -/
theorem undoubled_after (h : Undoubled (before ++ definedWord ++ after)) : Undoubled after := by
  obtain ⟨b, x, -, -, hruns⟩ := exists_runs_eq before after
  intro w hw hsuffix
  rw [runs_after, List.mem_append] at hw
  rcases hw with hw | hw
  · rw [eq_of_mem_runs_takeWhile hw] at hsuffix
    apply h (x ++ definedWord ++ after.takeWhile isNameChar) (by rw [hruns]; simp)
    exact hsuffix.trans (List.suffix_append _ _)
  · exact h w (by rw [hruns]; simp [hw]) hsuffix

/-- **An occurrence in a longer word is copied**, and reading goes on right behind it. -/
theorem resolveRuns?_of_runsOn
    (hcut : Text.cut? definedWord (before ++ definedWord ++ after) = some (before, after))
    (hruns : runsOn before after = true) (h : Undoubled (before ++ definedWord ++ after)) :
    resolveRuns? isDefined (runs (before ++ definedWord ++ after)) =
      (resolveRuns? isDefined (runs after)).map (before ++ definedWord ++ ·) := by
  obtain ⟨b, x, rfl, hb, heq⟩ := exists_runs_eq before after
  have hlength : definedWord.length = 7 := rfl
  -- The word is longer than the operator, because it goes on in front of or behind it.
  have hword : x ++ definedWord ++ after.takeWhile isNameChar ≠ definedWord := by
    intro hword
    have hlengths := congrArg List.length hword
    simp only [List.length_append] at hlengths
    obtain rfl : x = [] := List.eq_nil_of_length_eq_zero (by omega)
    have hnil : after.takeWhile isNameChar = [] := List.eq_nil_of_length_eq_zero (by omega)
    have hstart : startsInName after = false := by
      rw [← List.takeWhile_append_dropWhile (p := isNameChar) (l := after), hnil]
      exact Macro.startsInName_dropWhile after
    rw [runsOn, List.append_nil] at hruns
    rcases Bool.or_eq_true _ _ ▸ hruns with hends | hstarts
    · cases hb.symm.trans hends
    · cases hstart.symm.trans hstarts
  -- What is left of the word is not the operator, or the word would end in it twice.
  have hrest : .word definedWord ∉ runs (after.takeWhile isNameChar) := by
    intro hmem
    apply h (x ++ definedWord ++ after.takeWhile isNameChar) (by rw [heq]; simp)
    rw [← eq_of_mem_runs_takeWhile hmem, List.append_assoc]
    exact List.suffix_append _ _
  have hfront : .word definedWord ∉
      runs b ++ [.word (x ++ definedWord ++ after.takeWhile isNameChar)] := by
    intro hmem
    rcases List.mem_append.mp hmem with hmem | hmem
    · exact not_mem_runs_of_cut? hcut rfl hmem
    · exact hword (Run.word.inj (List.mem_singleton.mp hmem)).symm
  rw [heq, runs_after after, resolveRuns?_append hrest, List.append_cons,
    resolveRuns?_append hfront, Option.map_map, flatMap_text_runs]
  simp [Function.comp_def, flatMap_text_runs, Run.text]

variable (isDefined) in
/-- **An occurrence that is a word as a whole is replaced** together with its operand. -/
theorem resolveRuns?_of_not_runsOn
    (hcut : Text.cut? definedWord (before ++ definedWord ++ after) = some (before, after))
    (hruns : runsOn before after = false) :
    runs (before ++ definedWord ++ after) = runs before ++ .word definedWord :: runs after ∧
      resolveRuns? isDefined (runs (before ++ definedWord ++ after)) =
        match operand? after with
        | none => none
        | some (name, rest) =>
          (resolveRuns? isDefined (runs rest)).map
            (before ++ [if isDefined (String.ofList name) then '1' else '0'] ++ ·) := by
  obtain ⟨hends, hstart⟩ := Bool.or_eq_false_iff.mp hruns
  have hword : runs definedWord = [.word definedWord] :=
    runs_of_forall (by decide) (List.all_eq_true.mp (by decide))
  have heq : runs (before ++ definedWord ++ after) =
      runs before ++ .word definedWord :: runs after := by
    rw [List.append_assoc, runs_append (.inl hends), runs_append (.inr hstart), hword]
    rfl
  refine ⟨heq, ?_⟩
  rw [heq, resolveRuns?_append (not_mem_runs_of_cut? hcut (List.append_nil _).symm),
    flatMap_text_runs, resolveRuns?, if_pos rfl]
  have hoperand := operandRun?_runs after
  split
  · next hnone =>
    rw [hnone] at hoperand
    rw [Option.map_eq_none_iff.mp hoperand.symm]
    rfl
  · next name rs hsome =>
    rw [hsome] at hoperand
    obtain ⟨⟨n, rest⟩, hrest, hp⟩ := Option.map_eq_some_iff.mp hoperand.symm
    cases hp
    rw [hrest, Option.map_map]
    simp [Function.comp_def]

end Occurrence

/-- **`defined` is resolved per whole word**, if no word ends in `defineddefined`. -/
theorem resolveDefined?_eq_resolveRuns? (isDefined : String → Bool) (t : Text)
    (h : Undoubled t) : resolveDefined? isDefined t = resolveRuns? isDefined (runs t) := by
  fun_induction resolveDefined? isDefined t with
  | case1 t hcut =>
    have hnot : .word definedWord ∉ runs t := by
      intro hmem
      obtain ⟨p, q, hpq⟩ := exists_of_word_mem_runs hmem
      exact Text.ne_of_cut?_eq_none hcut hpq
    have hcopy : resolveRuns? isDefined (runs t ++ []) = _ := resolveRuns?_append hnot []
    rw [List.append_nil, resolveRuns?, flatMap_text_runs] at hcopy
    rw [hcopy, Option.map_some, List.append_nil]
  | case2 t before after hcut hruns ih =>
    obtain rfl := Text.eq_of_cut? hcut
    rw [ih (undoubled_after h), resolveRuns?_of_runsOn hcut hruns h]
  | case3 t before after hcut hruns hoperand =>
    obtain rfl := Text.eq_of_cut? hcut
    rw [(resolveRuns?_of_not_runsOn isDefined hcut (by simpa using hruns)).2, hoperand]
  | case4 t before after hcut hruns name rest hoperand ih =>
    obtain rfl := Text.eq_of_cut? hcut
    obtain ⟨heq, hresolve⟩ := resolveRuns?_of_not_runsOn isDefined hcut (by simpa using hruns)
    have hrun : operandRun? (runs after) = some (name, runs rest) := by
      rw [operandRun?_runs, hoperand]
      rfl
    have hsuffix : runs rest <:+ runs after := operandRun?_suffix hrun
    have hrest : Undoubled rest := by
      intro w hw
      apply h w
      rw [heq]
      exact List.mem_append_right _ (List.mem_cons_of_mem _ (hsuffix.mem hw))
    rw [hresolve, hoperand, ih hrest]

/-- A longer word, an operand in parentheses with an operator right behind it, and an operand
without parentheses. -/
def longerText : Text := "definedX&&defined( A )defined B".toList

theorem runs_longerText : runs longerText =
    [.word "definedX".toList, .mark '&', .mark '&', .word definedWord, .mark '(', .mark ' ',
      .word ['A'], .mark ' ', .mark ')', .word definedWord, .mark ' ', .word ['B']] := by
  cbv

theorem resolveDefined?_eq_resolveRuns?_longerText :
    Undoubled longerText ∧
      resolveDefined? (· == "A") longerText = some "definedX&&10".toList := by
  have hundoubled : Undoubled longerText := by
    intro w hw hsuffix
    have hle : 14 ≤ w.length := hsuffix.length_le
    rw [runs_longerText] at hw
    simp only [List.mem_cons, Run.word.injEq, reduceCtorEq, false_or, List.not_mem_nil,
      or_false] at hw
    rcases hw with rfl | rfl | rfl | rfl | rfl <;> exact absurd hle (by decide)
  refine ⟨hundoubled, ?_⟩
  rw [resolveDefined?_eq_resolveRuns? _ longerText hundoubled, runs_longerText]
  cbv

/-- What has been passed over does not count any more when the next occurrence is judged. -/
theorem resolveDefined?_doubled :
    resolveDefined? (fun _ => false) "defineddefined".toList = none ∧
      resolveRuns? (fun _ => false) (runs "defineddefined".toList) =
        some "defineddefined".toList := by
  constructor
  · cbv
  · cbv

end Condition

end PixelWrap
