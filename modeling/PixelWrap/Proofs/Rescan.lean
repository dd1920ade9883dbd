import PixelWrap.Proofs.Pieces
import PixelWrap.Proofs.Spelling

/-!
# Arguments that are read twice

The argument of a macro is read by itself before it goes into the replacement text, and again as
a part of that text, with the macro disabled.  For a macro whose replacement text is its parameter
this is all that happens.

The second reading knows nothing of the first.  It has just the macro disabled, and not those that
were when a name in the argument was left alone.

## Main definitions

* `Macro.isArgument`: a text that is one argument as a whole.
* `Macro.Table.expandUnder`: what a text becomes while some macros are disabled.

## Main results

* `Macro.collect?_of_isArgument`: one argument is read up to the parenthesis that closes it.
* `Macro.expand_use`: **a use of the macro is its argument, read twice.**
-/

namespace PixelWrap.Macro

variable {t : Table} {disabled : List String}

/-! ### One argument -/

/-- Whether the text is one argument as a whole: its parentheses are balanced, of which
`depth` are open in front of it, and it has no comma outside of them and no quote. -/
def isArgument : Nat → Text → Bool
  | depth, [] => depth == 0
  | depth, c :: r =>
    if c == '"' then false
    else if c == '(' then isArgument (depth + 1) r
    else if c == ')' then
      match depth with
      | 0 => false
      | d + 1 => isArgument d r
    else if c == ',' && depth == 0 then false
    else isArgument depth r

/-- **One argument is read up to the parenthesis that closes it.** -/
theorem collect?_of_isArgument {depth : Nat} {arg : Text} (h : isArgument depth arg = true)
    (rest : Text) : collect? depth (arg ++ ')' :: rest) = some ([arg], rest) := by
  fun_induction isArgument depth arg with
  | case1 depth =>
    cases eq_of_beq h
    rw [List.nil_append, collect?.eq_def]
    rfl
  | case3 depth c r hq hc ih =>
    rw [List.cons_append, collect?.eq_def]
    dsimp only
    rw [if_neg hq, if_pos hc, ih h]
    rfl
  | case5 c r hq ho hc d ih =>
    rw [List.cons_append, collect?.eq_def]
    dsimp only
    rw [if_neg hq, if_neg ho, if_pos hc, ih h]
    rfl
  | case7 depth c r hq ho hc hcomma ih =>
    rw [List.cons_append, collect?.eq_def]
    dsimp only
    rw [if_neg hq, if_neg ho, if_neg hc, if_neg hcomma, ih h]
    rfl
  | case2 | case4 | case6 => cases h

/-- The call of a macro with one parameter. -/
theorem readCall_of_isArgument (m : Macro) (param : String) {arg rest after : Text}
    (hm : m.variadic = false) (hrest : openParen? rest = some (arg ++ ')' :: after))
    (harg : isArgument 0 arg = true) :
    ∃ call, readCall m [param] rest = .ok (some call) ∧ call.args = [Text.trim arg] ∧
      call.after = after := by
  have hcollect := collect?_of_isArgument harg after
  have hmatch : matchParams? [param].length m.variadic ([arg].map Text.trim) =
      some [Text.trim arg] := by
    rw [hm]
    rfl
  unfold readCall
  split
  · next hnone => cases hrest.symm.trans hnone
  · next inner hinner =>
    cases hrest.symm.trans hinner
    split
    · next hnone => cases hcollect.symm.trans hnone
    · next pieces after' hsome =>
      cases hcollect.symm.trans hsome
      split
      · next hnone => cases hmatch.symm.trans hnone
      · next args hargs =>
        cases hmatch.symm.trans hargs
        exact ⟨_, rfl, rfl, rfl⟩

/-- What a text becomes while some macros are disabled. -/
def Table.expandUnder (t : Table) (disabled : List String) (text : Text) : Except Error Text :=
  ((scan t disabled text).map flatten).mapError Failure.error

theorem Table.expandUnder_nil (text : Text) : t.expandUnder [] text = t.expand text := rfl

/-- The answer to a use of a macro with one argument. -/
theorem invoke_of_isArgument {m : Enabled t disabled} {param : String} {arg rest after : Text}
    (hp : m.val.params = some [param]) (hm : m.val.variadic = false)
    (hrest : openParen? rest = some (arg ++ ')' :: after)) (harg : isArgument 0 arg = true) :
    (invoke t disabled m rest).map (Option.map fun o => (o.val.output, o.val.after)) =
      (t.expandUnder disabled (Text.trim arg)).bind fun u =>
        replaceAnswer t disabled m.val [Text.trim arg] [u] after := by
  obtain ⟨call, hcall, hargs, hafter⟩ := readCall_of_isArgument m.val param hm hrest harg
  rw [invoke_of_params_some _ hp, hcall]
  dsimp only
  rw [hargs, hafter, List.mapM_cons, Table.expandUnder]
  cases ((scan t disabled (Text.trim arg)).map flatten).mapError Failure.error with
  | error e => rfl
  | ok u => rfl

/-! ### Uses without arguments -/

/-- A macro with parameters is left alone where no parenthesis follows. -/
theorem invoke_of_openParen?_eq_none {m : Enabled t disabled} {rest : Text}
    (hm : m.val.isFunctionLike = true) (h : openParen? rest = none) :
    invoke t disabled m rest = .ok none := by
  rw [invoke]
  split
  · next hp =>
    rw [isFunctionLike, hp] at hm
    cases hm
  · next params hp =>
    have hread : readCall m.val params rest = .ok none := by
      unfold readCall
      split
      · rfl
      · next hinner => cases h.symm.trans hinner
    rw [hread]

/-- At the end of the text there is nothing to go on with. -/
theorem resume_nil (origin : String) (output : Text) :
    resume t disabled origin output [] = .ok ⟨output, [], List.suffix_rfl⟩ := by
  rw [resume]
  split
  · rfl
  · next m _ =>
    split
    · next hm =>
      simp only [Bool.and_eq_true] at hm
      rw [invoke_of_openParen?_eq_none hm.1 rfl]
    · rfl

/-! ### The macro -/

theorem ne_quote_of_isNameChar {c : Char} (h : isNameChar c = true) : ¬(c == '"') = true := by
  rw [beq_iff_eq]
  rintro rfl
  exact absurd h (by decide)

theorem segments_param {param : String} (h : Text.isName param.toList = true) :
    segments (some [param]) param.toList = [.arg 0] := by
  have hindex : paramIndex? (some [param]) param.toList = some 0 := by
    simp [paramIndex?, h]
  cases hp : param.toList with
  | nil =>
    rw [hp] at h
    cases h
  | cons c r =>
    rw [hp] at h hindex
    obtain ⟨hc, hr⟩ := Condition.isName_cons_iff.mp h
    have hchar := isNameChar_of_isNameStart hc
    have htake : r.takeWhile isNameChar = r := List.takeWhile_eq_self_iff.mpr hr
    have hdrop : r.dropWhile isNameChar = [] := List.dropWhile_eq_nil_iff.mpr hr
    rw [segments, if_neg (ne_quote_of_isNameChar hchar), if_pos hchar, htake, hindex, hdrop]
    · rw [segments]
    -- A name does not start with a pasting mark.
    · rintro r' rfl
      exact absurd hc (by decide)

/-- The macro whose replacement text is its parameter. -/
theorem ofDefinition?_param (name : String) {param : String}
    (h : Text.isName param.toList = true) :
    ofDefinition? name (some [param]) param.toList =
      some ⟨name, some [param], false, [.arg 0]⟩ := by
  have hdots : (param == "...") = false := by
    rw [beq_eq_false_iff_ne]
    rintro rfl
    exact absurd h (by decide)
  have hmark : markPasted false [.arg 0] = [.arg 0] := by decide
  simp [ofDefinition?, validParams, paramName, hdots, h, segments_param h, hmark]

theorem enabled?_of_find? {name : String} {m : Macro} (ht : t.find? name = some m)
    (hname : Text.isName name.toList = true) (hm : name ∉ disabled) :
    ∃ e, t.enabled? disabled name.toList = some e ∧ e.val = m := by
  have hfind : t.find? (String.ofList name.toList) = some m := by rw [String.ofList_toList, ht]
  unfold Table.enabled?
  split
  · next hnone => cases hfind.symm.trans hnone
  · next m' hsome =>
    cases hfind.symm.trans hsome
    have hnot : m.name ∉ disabled := by rwa [(Table.find?_eq_some ht).2]
    rw [dif_pos ⟨hname, hnot⟩]
    exact ⟨_, rfl, rfl⟩

/-- A text that is a use of a macro as a whole becomes what the use is replaced by. -/
theorem expandUnder_of_invoke {c : Char} {r : Text} {m : Enabled t disabled}
    {x : Except Error Text} (hc : isNameChar c = true)
    (hm : t.enabled? disabled (c :: r.takeWhile isNameChar) = some m)
    (hx : (invoke t disabled m (r.dropWhile isNameChar)).map
        (Option.map fun o => (o.val.output, o.val.after)) = x.map fun v => some (v, [])) :
    t.expandUnder disabled (c :: r) = x := by
  rw [Table.expandUnder, scan, if_neg (ne_quote_of_isNameChar hc), if_pos hc, hm]
  dsimp only
  -- The use takes up the rest of the text, so what is left to read is empty.
  cases hi : invoke t disabled m (r.dropWhile isNameChar) with
  | error e =>
    rw [hi] at hx
    cases x with
    | error e' =>
      cases hx
      rfl
    | ok v => cases hx
  | ok o =>
    rw [hi] at hx
    cases x with
    | error e => cases hx
    | ok v =>
      cases o with
      | none => cases hx
      | some o =>
        obtain ⟨⟨output, after, hsuffix⟩, ho⟩ := o
        cases hx
        dsimp only
        rw [scan]
        exact congrArg Except.ok (List.append_nil _)

/-- What a replacement text becomes if nothing follows the use. -/
theorem replaceAnswer_nil (m : Macro) (args expanded : List Text) :
    replaceAnswer t disabled m args expanded [] =
      (t.expandUnder (m.name :: disabled) (render args expanded m.body)).map
        fun v => some (v, []) := by
  rw [replaceAnswer, Table.expandUnder]
  cases scan t (m.name :: disabled) (render args expanded m.body) with
  | error e => rfl
  | ok ps =>
    show (resume t disabled m.name (flatten ps) [] >>= _) = _
    rw [resume_nil]
    rfl

/-- **A use of the macro is its argument, read twice**, the second time with the macro
disabled. -/
theorem expand_use {name param : String} {arg : Text}
    (ht : t.find? name = ofDefinition? name (some [param]) param.toList)
    (hname : Text.isName name.toList = true) (hparam : Text.isName param.toList = true)
    (harg : isArgument 0 arg = true) (htrim : Text.trim arg = arg) :
    t.expand (name.toList ++ '(' :: (arg ++ [')'])) =
      (t.expand arg).bind (t.expandUnder [name]) := by
  rw [ofDefinition?_param name hparam] at ht
  obtain ⟨⟨m, hmem⟩, hm, rfl⟩ := enabled?_of_find? ht hname (List.not_mem_nil : name ∉ [])
  have hopen : openParen? ('(' :: (arg ++ [')'])) = some (arg ++ [')']) := rfl
  have hinvoke := invoke_of_isArgument (m := ⟨_, hmem⟩) rfl rfl hopen harg
  -- The replacement text is the argument alone.
  have hrender : ∀ u, render [arg] [u] [.arg 0] = u := List.append_nil
  simp only [htrim, replaceAnswer_nil, hrender] at hinvoke
  cases hword : name.toList with
  | nil =>
    rw [hword] at hname
    cases hname
  | cons c r =>
    rw [hword] at hname hm
    obtain ⟨hc, hr⟩ := Condition.isName_cons_iff.mp hname
    have hhead : ∀ d ∈ ('(' :: (arg ++ [')'])).head?, isNameChar d = false := by
      rintro d ⟨⟩
      decide
    have htake := Condition.takeWhile_append_of_head hr hhead
    have hdrop := Condition.dropWhile_append_of_head hr hhead
    rw [List.cons_append]
    refine expandUnder_of_invoke (m := ⟨_, hmem⟩) (isNameChar_of_isNameStart hc)
      (by rw [htake, hm]) ?_
    rw [hdrop, hinvoke, Table.expandUnder_nil]
    cases t.expand arg with
    | error e => rfl
    | ok u => rfl

end PixelWrap.Macro
