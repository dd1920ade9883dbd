import PixelWrap.Proofs.Aliases

/-!
# A macro that stands for its argument

A macro whose replacement text is its parameter should stand for its argument.  Its argument is
read twice, though, so it does as long as the second reading finds nothing to replace in what the
first one has left.

A name is left by the first reading if its macro is disabled at that point, or takes arguments and
none follow.  The second reading does not know which macros were disabled, and so it replaces the
name of a macro that comes back to itself once more: with `X` for `X + 1`, the argument `X`
becomes `X + 1`, and that becomes `X + 1 + 1`.  Nor does a name stay without arguments if the
parentheses behind it come from other macros.

What stays can be told from the text that the first reading puts out, and from the replacement
texts of the macros that it names.

## Main definitions

* `Macro.Table.Circles`: a name comes back to itself by way of single names.
* `Macro.Table.Stays`: a name in front of a text stays as it is.
* `Macro.Table.Settled`: each name of a macro in a text stays as it is.

## Main results

* `Macro.expandUnder_of_circles`: a name that comes back to itself is replaced by itself.
* `Macro.expandUnder_of_settled`: **reading a settled text changes nothing.**
* `Macro.expand_identity`: **the macro stands for its argument**, if that becomes a settled text.
-/

namespace PixelWrap.Macro

open Text (OuterWordAt outerWords)

variable {t : Table} {disabled : List String} {w rest text : Text}

theorem Step.expandUnder_eq {p : Piece} (h : Step t disabled text p rest) :
    t.expandUnder disabled text = (t.expandUnder disabled rest).map (p.output ++ ·) := by
  rw [Table.expandUnder, h.scan_eq, Table.expandUnder]
  cases scan t disabled rest with
  | error e => rfl
  | ok ps => exact congrArg Except.ok (flatten_put p ps)

/-! ### Names that come back to themselves -/

/-- The first word is the name of a macro without parameters, and the second one is the
replacement text of that macro. -/
def Table.StandsFor (t : Table) (w v : Text) : Prop :=
  Text.isName w = true ∧ ∃ m, t.find? (String.ofList w) = some m ∧ m.params = none ∧
    render [] [] m.body = v

/-- Macros without parameters lead from the name back to it: each stands for the name of the
next one, and the last one for the first. -/
def Table.Circles (t : Table) (w : Text) : Prop :=
  ∃ ws, (w :: ws).Nodup ∧ List.IsChain t.StandsFor (w :: ws ++ [w])

theorem Table.StandsFor.exists_enabled {v : Text} (h : t.StandsFor w v)
    (hw : String.ofList w ∉ disabled) :
    ∃ m, t.enabled? disabled w = some m ∧ m.val.params = none ∧
      m.val.name = String.ofList w ∧ render [] [] m.val.body = v := by
  obtain ⟨hname, m, hfind, hp, hbody⟩ := h
  obtain ⟨hmem, hm⟩ := Table.find?_eq_some hfind
  exact ⟨⟨m, hmem, hm ▸ hw⟩, enabled?_eq_some_iff.mpr ⟨hfind, hname⟩, hp, hm, hbody⟩

/-- A word becomes what the word becomes that it stands for. -/
theorem Table.StandsFor.expandUnder_eq {v : Text} (h : t.StandsFor w v)
    (hw : String.ofList w ∉ disabled) :
    t.expandUnder disabled w = t.expandUnder (String.ofList w :: disabled) v := by
  obtain ⟨m, hm, hp, hname, hbody⟩ := h.exists_enabled hw
  rw [expandUnder_of_params_none_nil (isWord_of_isName h.1 nofun) hm hp, hname, hbody]

theorem expandUnder_of_mem (hw : Text.isName w = true) (hmem : String.ofList w ∈ disabled) :
    t.expandUnder disabled w = .ok w := by
  refine expandUnder_of_isWord (isWord_of_isName hw nofun) fun m hm => ?_
  have hname := (Table.find?_eq_some (enabled?_eq_some_iff.mp hm).1).2
  exact absurd (hname ▸ hmem) m.property.2

/-- The first name of a chain becomes the last one, if that is disabled. -/
theorem expandUnder_of_isChain {v : Text} {vs : List Text} (hw : Text.isName w = true)
    (hmem : String.ofList w ∈ disabled) (hchain : List.IsChain t.StandsFor (vs ++ [w]))
    (hnodup : vs.Nodup) (hvs : ∀ u ∈ vs, String.ofList u ∉ disabled)
    (hv : (vs ++ [w]).head? = some v) : t.expandUnder disabled v = .ok w := by
  induction vs generalizing v disabled with
  | nil =>
    cases hv
    exact expandUnder_of_mem hw hmem
  | cons u us ih =>
    cases hv
    have hx : (us ++ [w]).head? = some (us.head?.getD w) := List.head?_concat
    obtain ⟨hu, hrest⟩ := List.isChain_cons.mp hchain
    obtain ⟨hnotMem, hnodup⟩ := List.nodup_cons.mp hnodup
    obtain ⟨hud, hus⟩ := List.forall_mem_cons.mp hvs
    rw [(hu _ hx).expandUnder_eq hud]
    refine ih (List.mem_cons_of_mem _ hmem) hrest hnodup (fun y hy => ?_) hx
    rw [List.mem_cons, not_or, String.ofList_inj]
    exact ⟨fun heq => hnotMem (heq ▸ hy), hus y hy⟩

/-- Each name of the chain stands for the next one. -/
theorem exists_standsFor {vs : List Text} (hchain : List.IsChain t.StandsFor (vs ++ [w])) :
    ∀ u ∈ vs, ∃ v, t.StandsFor u v := by
  induction vs with
  | nil => nofun
  | cons u us ih =>
    obtain ⟨hu, hrest⟩ := List.isChain_cons.mp hchain
    exact List.forall_mem_cons.mpr ⟨⟨_, hu _ List.head?_concat⟩, ih hrest⟩

/-- **A name that comes back to itself is replaced by itself**, as long as only macros with
parameters are disabled. -/
theorem expandUnder_of_circles (h : t.Circles w) (hw : IsWord w rest)
    (hdisabled : ∀ d ∈ disabled, ∀ m, t.find? d = some m → m.isFunctionLike = true) :
    t.expandUnder disabled (w ++ rest) = (t.expandUnder disabled rest).map (w ++ ·) := by
  obtain ⟨ws, hnodup, hchain⟩ := h
  have hws : ∀ u ∈ w :: ws, String.ofList u ∉ disabled := by
    intro u hu hmem
    obtain ⟨v, -, m, hfind, hp, -⟩ := exists_standsFor hchain u hu
    have hm := hdisabled _ hmem m hfind
    rw [isFunctionLike, hp] at hm
    cases hm
  obtain ⟨hwd, hrestd⟩ := List.forall_mem_cons.mp hws
  obtain ⟨hnext, hchain⟩ := List.isChain_cons.mp hchain
  obtain ⟨hnotMem, hnodup⟩ := List.nodup_cons.mp hnodup
  have hv := hnext _ List.head?_concat
  obtain ⟨m, hm, hp, hname, hbody⟩ := hv.exists_enabled hwd
  have hself : t.expandUnder (String.ofList w :: disabled) (ws.head?.getD w) = .ok w := by
    refine expandUnder_of_isChain hv.1 (List.mem_cons_self ..) hchain hnodup (fun u hu => ?_)
      List.head?_concat
    rw [List.mem_cons, not_or, String.ofList_inj]
    exact ⟨fun heq => hnotMem (heq ▸ hu), hrestd u hu⟩
  -- No arguments are read behind the name that is left.
  have hresume : (Task.resume (String.ofList w) w rest : Task t disabled).answer =
      .ok (w, rest) := by
    refine answer_resume_eq_ok_iff.mpr (.inl ⟨rfl, fun f hf hfun _ => ?_⟩)
    rw [trailingName_of_isName hv.1, hm] at hf
    cases hf
    rw [isFunctionLike, hp] at hfun
    cases hfun
  rw [expandUnder_of_params_none hw hm hp, hname, hbody, hself]
  simp only [Except.bind, hresume]

/-! ### Settled texts -/

/-- The name stays as it is in front of the text: it names no macro that may be replaced, or one
with parameters and no arguments follow, or one that comes back to it. -/
def Table.Stays (t : Table) (disabled : List String) (w after : Text) : Prop :=
  ∀ m, t.find? (String.ofList w) = some m → m.name ∉ disabled →
    (m.isFunctionLike = true ∧ openParen? after = none) ∨ t.Circles w

/-- Each name that stands in the text as a whole word, outside of literals, stays as it is. -/
def Table.Settled (t : Table) (disabled : List String) (text : Text) : Prop :=
  ∀ before w after, text = before ++ (w ++ after) → OuterWordAt w (Text.size before) text →
    t.Stays disabled w after

theorem settled_nil : t.Settled disabled [] := fun _ _ _ _ h => absurd h Text.not_outerWordAt_nil

theorem settled_literal {r : Text} :
    t.Settled disabled ('"' :: r) ↔ t.Settled disabled (Quoted.split r).2 := by
  have happend : '"' :: r = '"' :: (Quoted.split r).1 ++ (Quoted.split r).2 := by
    rw [List.cons_append, Quoted.split_append]
  constructor
  · intro h before w after htext hw
    refine h ('"' :: (Quoted.split r).1 ++ before) w after ?_ ?_
    · rw [List.append_assoc, ← htext, happend]
    · exact Text.outerWordAt_literal.mpr ⟨_, Text.size_append _ _, hw⟩
  · intro h before w after htext hw
    obtain ⟨k, hk, hword⟩ := Text.outerWordAt_literal.mp hw
    obtain ⟨before', rfl, hrest⟩ := Text.exists_of_append_eq (happend.symm.trans htext) (by omega)
    rw [Text.size_append, Nat.add_left_cancel_iff] at hk
    exact h before' w after hrest (hk ▸ hword)

theorem settled_word (hw : IsWord w rest) : t.Settled disabled (w ++ rest) ↔
    (Text.isName w = true → t.Stays disabled w rest) ∧ t.Settled disabled rest := by
  constructor
  · refine fun h => ⟨fun hname => ?_, fun before v after hrest hv => ?_⟩
    · exact h [] w rest rfl ((Text.outerWordAt_word hw).mpr (.inl ⟨rfl, rfl, hname⟩))
    · refine h (w ++ before) v after (by rw [hrest, List.append_assoc]) ?_
      exact (Text.outerWordAt_word hw).mpr (.inr ⟨_, Text.size_append _ _, hv⟩)
  · rintro ⟨hfirst, hrest⟩ before v after htext hv
    rcases (Text.outerWordAt_word hw).mp hv with ⟨rfl, hsize, hname⟩ | ⟨k, hk, hword⟩
    · obtain rfl := Text.eq_nil_of_size hsize
      obtain rfl : rest = after := List.append_cancel_left htext
      exact hfirst hname
    · obtain ⟨before', rfl, heq⟩ := Text.exists_of_append_eq htext (by omega)
      rw [Text.size_append, Nat.add_left_cancel_iff] at hk
      exact hrest before' v after heq (hk ▸ hword)

theorem settled_mark {c : Char} {r : Text} (hq : c ≠ '"') (hc : isNameChar c = false) :
    t.Settled disabled (c :: r) ↔ t.Settled disabled r := by
  constructor
  · intro h before w after htext hw
    refine h (c :: before) w after (by rw [htext]; rfl) ?_
    exact (Text.outerWordAt_mark hq hc).mpr ⟨_, Text.size_cons _ _, hw⟩
  · intro h before w after htext hw
    obtain ⟨k, hk, hword⟩ := (Text.outerWordAt_mark hq hc).mp hw
    have hle : Text.size [c] ≤ Text.size before := by
      rw [Text.size_cons, Text.size_nil]
      omega
    obtain ⟨before', rfl, hrest⟩ := Text.exists_of_append_eq (s := [c]) htext hle
    rw [List.singleton_append, Text.size_cons, Nat.add_left_cancel_iff] at hk
    exact h before' w after hrest (hk ▸ hword)

/-- **Reading a settled text changes nothing**, as long as only macros with parameters are
disabled. -/
theorem expandUnder_of_settled (h : t.Settled disabled text)
    (hdisabled : ∀ d ∈ disabled, ∀ m, t.find? d = some m → m.isFunctionLike = true) :
    t.expandUnder disabled text = .ok text := by
  induction text using Text.item_induction with
  | nil => exact expandUnder_empty
  | literal r ih =>
    rw [(Step.literal r).expandUnder_eq, ih (settled_literal.mp h)]
    exact congrArg (fun r => Except.ok ('"' :: r)) (Quoted.split_append r)
  | word w rest hw ih =>
    obtain ⟨hstays, hrest⟩ := (settled_word hw).mp h
    by_cases hcircles : t.Circles w
    · rw [expandUnder_of_circles hcircles hw hdisabled, ih hrest]
      rfl
    · have hstep : Step t disabled (w ++ rest) (.kept w) rest := by
        refine .word hw fun m hm => ?_
        obtain ⟨hfind, hname⟩ := enabled?_eq_some_iff.mp hm
        exact (hstays hname m.val hfind m.property.2).resolve_right hcircles
      rw [hstep.expandUnder_eq, ih hrest]
      rfl
  | mark c r hq hc ih =>
    rw [(Step.mark r hq hc).expandUnder_eq, ih ((settled_mark hq hc).mp h)]
    rfl

/-! ### The macro -/

/-- **A use of the macro is its argument, read twice**, the second time with just the macro
disabled.  So **the macro stands for its argument**, if what the argument becomes is settled. -/
theorem expand_identity (name param : String) (arg : Text)
    (ht : t.find? name = ofDefinition? name (some [param]) param.toList)
    (hname : Text.isName name.toList = true) (hparam : Text.isName param.toList = true)
    (harg : isArgument 0 arg = true) (htrim : Text.trim arg = arg) :
    t.expand (name.toList ++ '(' :: (arg ++ [')'])) =
        (t.expand arg).bind (t.expandUnder [name]) ∧
      ((∀ u, t.expand arg = .ok u → t.Settled [name] u) →
        t.expand (name.toList ++ '(' :: (arg ++ [')'])) = t.expand arg) := by
  have huse := expand_use ht hname hparam harg htrim
  refine ⟨huse, fun hsettled => ?_⟩
  rw [huse]
  cases hu : t.expand arg with
  | error e => rfl
  | ok u =>
    refine expandUnder_of_settled (hsettled u hu) fun d hd m hm => ?_
    rw [List.mem_singleton.mp hd, ht, ofDefinition?_param name hparam] at hm
    cases hm
    rfl

/-- The macro that stands for its argument. -/
def identityMacro : Macro := ⟨"ID", some ["x"], false, [.arg 0]⟩

theorem ofDefinition?_identityMacro :
    ofDefinition? "ID" (some ["x"]) "x".toList = some identityMacro :=
  ofDefinition?_param "ID" (by decide)

/-- Two macros that stand for each other, and one with parameters. -/
def circleTable : Table := ⟨[identityMacro, ⟨"A", none, false, [.text ['B']]⟩,
  ⟨"B", none, false, [.text ['A']]⟩, bracketMacro]⟩

theorem circles_circleTable : circleTable.Circles ['A'] := by
  have hA : circleTable.StandsFor ['A'] ['B'] :=
    ⟨by decide, ⟨"A", none, false, [.text ['B']]⟩, by decide, rfl, rfl⟩
  have hB : circleTable.StandsFor ['B'] ['A'] :=
    ⟨by decide, ⟨"B", none, false, [.text ['A']]⟩, by decide, rfl, rfl⟩
  exact ⟨[['B']], by decide, by simp [hA, hB]⟩

/-- A name that comes back to itself stays, and so does one without arguments. -/
theorem settled_circleTable : circleTable.Settled disabled "A F".toList := by
  have hA : IsWord ['A'] " F".toList := isWord_singleton (by decide) (by rintro c ⟨⟩; decide)
  have hF : IsWord ['F'] [] := isWord_singleton (by decide) nofun
  refine (settled_word hA).mpr ⟨fun _ _ _ _ => .inr circles_circleTable, ?_⟩
  refine (settled_mark (by decide) (by decide)).mpr ((settled_word hF).mpr ⟨?_, settled_nil⟩)
  intro _ m hm _
  cases hm
  exact .inl ⟨rfl, rfl⟩

theorem expand_identity_circleTable :
    circleTable.expand "A F".toList = .ok "A F".toList ∧
      circleTable.Settled ["ID"] "A F".toList ∧
      circleTable.expand "ID(A F)".toList = circleTable.expand "A F".toList := by
  have hexpand : circleTable.expand "A F".toList = .ok "A F".toList :=
    expandUnder_of_settled settled_circleTable nofun
  refine ⟨hexpand, settled_circleTable, ?_⟩
  refine (expand_identity (t := circleTable) "ID" "x" "A F".toList
    ofDefinition?_identityMacro.symm (by decide) (by decide) (by decide) (by decide)).2
    fun u hu => ?_
  cases hexpand.symm.trans hu
  exact settled_circleTable

/-- A macro without parameters whose replacement text holds its name. -/
def recursiveTable : Table := ⟨[identityMacro, ⟨"X", none, false,
  [.text ['X'], .text [' '], .text ['+'], .text [' '], .text ['1']]⟩]⟩

/-- A macro with brackets, and two macros that stand for parentheses. -/
def deferredTable : Table := ⟨[identityMacro, bracketMacro, ⟨"LP", none, false, [.text ['(']]⟩,
  ⟨"RP", none, false, [.text [')']]⟩]⟩

theorem expand_recursiveTable :
    recursiveTable.expand "ID(X)".toList = .ok "X + 1 + 1".toList := by
  have huse : recursiveTable.expand ("ID".toList ++ '(' :: ("X".toList ++ [')'])) = _ :=
    expand_use ofDefinition?_identityMacro.symm (by decide) (by decide) (by decide) (by decide)
  refine huse.trans ?_
  have hexpand : recursiveTable.expand "X".toList = .ok "X + 1".toList := by cbv
  rw [hexpand]
  show recursiveTable.expandUnder ["ID"] "X + 1".toList = _
  cbv

theorem expand_deferredTable :
    deferredTable.expand "ID(F LP 1 RP)".toList = .ok "[1]".toList := by
  have huse : deferredTable.expand ("ID".toList ++ '(' :: ("F LP 1 RP".toList ++ [')'])) = _ :=
    expand_use ofDefinition?_identityMacro.symm (by decide) (by decide) (by decide) (by decide)
  refine huse.trans ?_
  have hexpand : deferredTable.expand "F LP 1 RP".toList = .ok "F ( 1 )".toList := by cbv
  rw [hexpand]
  -- What the two names have become is the argument of the macro in front of them.
  let f : Enabled deferredTable ["ID"] := ⟨bracketMacro, by decide, by decide⟩
  have hopen : openParen? " ( 1 )".toList = some (" 1 ".toList ++ ')' :: []) := by decide
  have hinvoke := invoke_of_isArgument (m := f) rfl rfl hopen (by decide)
  refine expandUnder_of_invoke (m := f) (by decide) (by cbv) (hinvoke.trans ?_)
  cbv

/-- A name that was left because its macro was disabled is replaced when it is read again.  A
name that was left without arguments is replaced if other macros stand for the parentheses. -/
theorem expand_identity_ne :
    (recursiveTable.find? "ID" = ofDefinition? "ID" (some ["x"]) "x".toList ∧
      recursiveTable.find? "X" = ofDefinition? "X" none "X + 1".toList ∧
      isArgument 0 "X".toList = true ∧ Text.trim "X".toList = "X".toList ∧
      recursiveTable.expand "X".toList = .ok "X + 1".toList ∧
      trailingName "X + 1".toList = [] ∧
      recursiveTable.expand "ID(X)".toList = .ok "X + 1 + 1".toList) ∧
    deferredTable.find? "ID" = ofDefinition? "ID" (some ["x"]) "x".toList ∧
      isArgument 0 "F LP 1 RP".toList = true ∧
      Text.trim "F LP 1 RP".toList = "F LP 1 RP".toList ∧
      deferredTable.expand "F LP 1 RP".toList = .ok "F ( 1 )".toList ∧
      trailingName "F ( 1 )".toList = [] ∧
      deferredTable.expand "ID(F LP 1 RP)".toList = .ok "[1]".toList := by
  refine ⟨⟨ofDefinition?_identityMacro.symm, by cbv, by decide, by decide, by cbv, by decide,
    expand_recursiveTable⟩, ?_⟩
  exact ⟨ofDefinition?_identityMacro.symm, by decide, by decide, by cbv, by decide,
    expand_deferredTable⟩

end PixelWrap.Macro
