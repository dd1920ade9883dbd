import PixelWrap.Proofs.OuterWords

/-!
# A macro that stands for a word

A name at the end of a replacement takes its arguments from the text behind the use.  It is
found by reading the replacement backwards, while a name of the text is found by reading
forwards.  So a macro without parameters that stands for a word should be read as the word is,
together with the text behind it.

It is, with two exceptions.  Read backwards, the name in `3F` is `F`, and forwards it is no name
at all.  And going on behind the macro is stopped by the macro itself, but not by another one
whose replacement ends in its own name.

Behind this is a fact about disabled macros: the word is read with the macro disabled, and that
makes no difference if the macro does not come up.  When it does not can be told from the
replacement texts of the other macros, with `not_meets_of_unmentioned`.

## Main definitions

* `Macro.Code.All`: what holds of all tasks that code starts.
* `Macro.Table.Meets`: replacing the macros in a text comes to a use of a macro.
* `Macro.Unaffected`: the answer of a task stays the same if one more macro is disabled.
* `Macro.Table.expandOn`: what becomes of a word in place of a use and the text behind the use.

## Main results

* `Macro.unaffected_of_avoids`: **a macro that does not come up may as well be disabled.**
* `Macro.openParen?_of_resume`: going on stops only where no arguments follow.
* `Macro.expandOn_eq`: going on behind a word is reading the word with the text behind it.
* `Macro.expand_alias`: **a macro that stands for a word is read as the word is.**
-/

namespace PixelWrap.Macro

variable {t : Table} {disabled : List String}

/-! ### Tasks that are started -/

/-- The code starts only tasks for which `P` holds. -/
def Code.All {α : Type} (P : Frame t → Prop) : Code t α → Prop
  | .done _ _ => True
  | .call stack task next => P ⟨stack, task⟩ ∧ (next stack task.answer).All P

theorem Code.all_iff {α : Type} {P : Frame t → Prop} {c : Code t α} :
    c.All P ↔ ∀ f, Starts c f → P f := by
  induction c with
  | done => exact ⟨nofun, fun _ => trivial⟩
  | call stack task next ih =>
    constructor
    · rintro ⟨hfirst, hlater⟩ f hf
      cases hf with
      | first => exact hfirst
      | later hr hf =>
        obtain ⟨rfl, rfl⟩ := (runs_code ⟨stack, task⟩).unique hr
        exact (ih _ _).mp hlater f hf
    · intro h
      refine ⟨h _ (.first stack task next), (ih _ _).mpr fun f hf => h f ?_⟩
      exact .later (runs_code ⟨stack, task⟩) hf

/-- How the code of a scan goes on at a word. -/
theorem scanCode_word {w rest : Text} (hw : IsWord w rest) :
    scanCode t disabled (w ++ rest) =
      match t.enabled? disabled w with
      | none => scanOn disabled rest (keep w)
      | some m =>
        .call disabled (.invoke m rest) fun stack a =>
          match a with
          | .error e => .done stack (.error ⟨e, w ++ rest⟩)
          | .ok none => scanOn stack rest (keep w)
          | .ok (some (output, after)) =>
            scanOn stack after
              (.replaced ((w ++ rest).take ((w ++ rest).length - after.length)) output :: ·) := by
  obtain ⟨c, w, rfl⟩ := List.exists_cons_of_ne_nil hw.ne_nil
  obtain ⟨hc, hchars⟩ := List.forall_mem_cons.mp hw.chars
  rw [List.cons_append, scanCode, if_neg (ne_quote_of_isNameChar hc), if_pos hc,
    Condition.takeWhile_append_of_head hchars hw.stop,
    Condition.dropWhile_append_of_head hchars hw.stop]
  cases t.enabled? disabled (c :: w) with
  | none => rfl
  | some m =>
    refine congrArg (Code.call disabled (.invoke m rest)) (funext fun stack => funext fun a => ?_)
    rcases a with e | _ | ⟨output, after⟩ <;> rfl

/-- The task is a use of the macro of the given name. -/
def IsUse (name : String) : Frame t → Prop
  | ⟨_, .invoke m _⟩ => m.val.name = name
  | _ => False

/-- No task that comes up along the way is a use of the macro. -/
def Avoids (name : String) (f : Frame t) : Prop :=
  ∀ g, Relation.ReflTransGen Calls f g → ¬IsUse name g

theorem avoids_iff {name : String} {f : Frame t} :
    Avoids name f ↔ ¬IsUse name f ∧ f.2.code.All (Avoids name) := by
  rw [Code.all_iff]
  constructor
  · exact fun h => ⟨h f .refl, fun g hg k hk => h k (.head hg hk)⟩
  · rintro ⟨hf, hcalls⟩ g hg
    cases hg using Relation.ReflTransGen.head_induction_on with
    | refl => exact hf
    | head hcall hreach => exact hcalls _ hcall g hreach

/-- Replacing the macros in the text comes to a use of the macro of the given name. -/
def Table.Meets (t : Table) (text : Text) (name : String) : Prop :=
  ∃ f : Frame t, Relation.ReflTransGen Calls ⟨[], .scan text⟩ f ∧ IsUse name f

theorem not_meets_iff {text : Text} {name : String} :
    ¬t.Meets text name ↔ Avoids name (⟨[], .scan text⟩ : Frame t) :=
  ⟨fun h f hf huse => h ⟨f, hf, huse⟩, fun h ⟨f, hf, huse⟩ => h f hf huse⟩

/-! ### Disabling one more macro -/

theorem enabled?_eq_some_iff {word : Text} {m : Enabled t disabled} :
    t.enabled? disabled word = some m ↔
      t.find? (String.ofList word) = some m.val ∧ Text.isName word = true := by
  unfold Table.enabled?
  split
  · next hnone => simp [hnone]
  · next m' hsome =>
    split
    · next hm => simp [hsome, hm.1, Subtype.ext_iff]
    · next hm =>
      constructor
      · nofun
      · rintro ⟨heq, hname⟩
        cases hsome.symm.trans heq
        exact absurd ⟨hname, m.property.2⟩ hm

theorem find?_name_of_enabled? {word : Text} {m : Enabled t disabled}
    (h : t.enabled? disabled word = some m) : t.find? m.val.name = some m.val := by
  have hfind := (enabled?_eq_some_iff.mp h).1
  rwa [← (Table.find?_eq_some hfind).2] at hfind

/-- The second stack has one more name. -/
def Adds (name : String) (stack stack' : List String) : Prop :=
  ∀ n, n ∈ stack' ↔ n = name ∨ n ∈ stack

section Adds

variable {name : String} {s s' : List String}

theorem Adds.cons (h : Adds name s s') (n : String) : Adds name (n :: s) (n :: s') := by
  intro k
  rw [List.mem_cons, List.mem_cons, h k]
  exact or_left_comm

theorem Adds.exists_enabled (h : Adds name s s') (m : Enabled t s) (hm : m.val.name ≠ name) :
    ∃ m' : Enabled t s', m'.val = m.val := by
  refine ⟨⟨m.val, m.property.1, fun hmem => ?_⟩, rfl⟩
  exact ((h _).mp hmem).elim hm m.property.2

/-- Another macro stays enabled. -/
theorem Adds.enabled?_eq_some (h : Adds name s s') {word : Text} {m : Enabled t s}
    (he : t.enabled? s word = some m) (hm : m.val.name ≠ name) :
    ∃ m', t.enabled? s' word = some m' ∧ m'.val = m.val := by
  obtain ⟨m', hm'⟩ := h.exists_enabled m hm
  rw [enabled?_eq_some_iff, ← hm'] at he
  exact ⟨m', enabled?_eq_some_iff.mpr he, hm'⟩

theorem Adds.exists_of_enabled? (h : Adds name s s') {word : Text} {m' : Enabled t s'}
    (he : t.enabled? s' word = some m') :
    ∃ m, t.enabled? s word = some m ∧ m.val = m'.val ∧ m.val.name ≠ name := by
  have hnot : ∀ n, n = name ∨ n ∈ s → n ≠ m'.val.name := by
    rintro n hn rfl
    exact m'.property.2 ((h _).mpr hn)
  rw [enabled?_eq_some_iff] at he
  refine ⟨⟨m'.val, m'.property.1, fun hmem => hnot _ (.inr hmem) rfl⟩, ?_, rfl, ?_⟩
  · exact enabled?_eq_some_iff.mpr he
  · exact fun heq => hnot name (.inl rfl) heq.symm

theorem Adds.enabled?_eq_none (h : Adds name s s') {word : Text}
    (he : ∀ m, t.enabled? s word = some m → m.val.name = name) : t.enabled? s' word = none := by
  cases he' : t.enabled? s' word with
  | none => rfl
  | some m' =>
    obtain ⟨m, hm, -, hne⟩ := h.exists_of_enabled? he'
    exact absurd (he m hm) hne

end Adds

/-- What the task answers does not change if the macro of the given name is disabled as well,
and the task is no use of it. -/
def Unaffected (name : String) : Frame t → Prop
  | ⟨s, .scan text⟩ => ∀ s', Adds name s s' → scan t s' text = scan t s text
  | ⟨s, .invoke m rest⟩ => m.val.name ≠ name ∧ ∀ s', Adds name s s' → ∀ m' : Enabled t s',
      m'.val = m.val → (Task.invoke m' rest).answer = (Task.invoke m rest).answer
  | ⟨s, .resume origin output rest⟩ => ∀ s', Adds name s s' →
      (Task.resume origin output rest : Task t s').answer =
        (Task.resume origin output rest : Task t s).answer

section Unaffected

variable {name : String} {s s' : List String}

/-- A scan looks a name up and leaves the rest to the tasks that it starts. -/
theorem unaffected_scan {text : Text} (h : (scanCode t s text).All (Unaffected name)) :
    Unaffected name (⟨s, .scan text⟩ : Frame t) := by
  intro s' hs
  -- Only what the text starts with matters, and the tasks for the rest are those of the code.
  induction text using Text.item_induction with
  | nil => rw [scan, scan]
  | literal r =>
    rw [scanCode, if_pos (beq_self_eq_true _)] at h
    rw [scan, scan, if_pos (beq_self_eq_true _), if_pos (beq_self_eq_true _), h.1 s' hs]
  | word w rest hw =>
    rw [scanCode_word hw] at h
    rw [scan_word hw, scan_word hw]
    cases he : t.enabled? s w with
    | none =>
      simp only [he] at h
      rw [hs.enabled?_eq_none (by simp [he])]
      simp only [h.1 s' hs]
    | some m =>
      simp only [he] at h
      obtain ⟨⟨hne, hinvoke⟩, hrest⟩ := h
      obtain ⟨m', he', hm'⟩ := hs.enabled?_eq_some he hne
      simp only [he', hinvoke s' hs m' hm']
      -- The use is answered alike, and so is the rest of the text.
      revert hrest
      cases (Task.invoke m rest).answer with
      | error e => exact fun _ => rfl
      | ok x =>
        intro hrest
        rcases x with _ | ⟨out, after⟩
        · simp only [hrest.1 s' hs]
        · simp only [hrest.1 s' hs]
  | mark c r hq hc =>
    have hquote : ¬(c == '"') = true := by simpa using hq
    have hchar : ¬isNameChar c = true := by simp [hc]
    rw [scanCode, if_neg hquote, if_neg hchar] at h
    rw [scan, scan, if_neg hquote, if_neg hquote, if_neg hchar, if_neg hchar, h.1 s' hs]

/-- Arguments are read alike, up to the first one that fails. -/
theorem all_of_expandAll {α : Type} {args : List Text}
    {next : List String → Except Error (List Text) → Code t α} (hs : Adds name s s')
    (h : (expandAll s args next).All (Unaffected name)) :
    args.mapM (t.expandUnder s') = args.mapM (t.expandUnder s) ∧
      (next s (args.mapM (t.expandUnder s))).All (Unaffected name) := by
  induction args generalizing next with
  | nil => exact ⟨rfl, h⟩
  | cons a args ih =>
    obtain ⟨hscan, hrest⟩ := h
    have ha : t.expandUnder s' a = t.expandUnder s a := by
      rw [Table.expandUnder, hscan s' hs, Table.expandUnder]
    rw [List.mapM_cons, List.mapM_cons, ha]
    simp only [Task.answer] at hrest
    rw [← Table.expandUnder] at hrest
    cases hx : t.expandUnder s a with
    | error e =>
      rw [hx] at hrest
      exact ⟨rfl, hrest⟩
    | ok x =>
      rw [hx] at hrest
      obtain ⟨hargs, hnext⟩ := ih hrest
      rw [hargs]
      refine ⟨rfl, ?_⟩
      cases hxs : args.mapM (t.expandUnder s) with
      | error e =>
        rw [hxs] at hnext
        exact hnext
      | ok xs =>
        rw [hxs] at hnext
        exact hnext

/-- A replacement text is read, and the outcome is resumed. -/
theorem replaceAnswer_eq (m : Macro) (args expanded : List Text) (after : Text) :
    replaceAnswer t s m args expanded after =
      (t.expandUnder (m.name :: s) (render args expanded m.body)).bind fun u =>
        (Task.resume m.name u after : Task t s).answer.map some := by
  rw [replaceAnswer, Table.expandUnder]
  cases scan t (m.name :: s) (render args expanded m.body) with
  | error e => rfl
  | ok ps =>
    show _ = ((resume t s m.name (flatten ps) after).map fun o => (o.output, o.after)).map some
    simp only [Except.mapError, bind, Except.bind]
    cases resume t s m.name (flatten ps) after with
    | error e => rfl
    | ok o => rfl

theorem replaceAnswer_of_all {m : Macro} {args expanded : List Text} {after : Text}
    (hs : Adds name s s')
    (h : (replaceCode s m args expanded after : Code t _).All (Unaffected name)) :
    replaceAnswer t s' m args expanded after = replaceAnswer t s m args expanded after := by
  obtain ⟨hscan, hrest⟩ := h
  rw [replaceAnswer_eq, replaceAnswer_eq, Table.expandUnder, hscan _ (hs.cons m.name),
    Table.expandUnder]
  simp only [Task.answer] at hrest
  cases hps : scan t (m.name :: s) (render args expanded m.body) with
  | error e => rfl
  | ok ps =>
    rw [hps] at hrest
    exact congrArg (Except.map some) (hrest.1 s' hs)

theorem unaffected_invoke {m : Enabled t s} {rest : Text} (hm : m.val.name ≠ name)
    (h : (invokeCode t s m.val rest).All (Unaffected name)) :
    Unaffected name (⟨s, .invoke m rest⟩ : Frame t) := by
  refine ⟨hm, fun s' hs m' hm' => ?_⟩
  rw [invokeCode] at h
  simp only [Task.answer]
  cases hp : m.val.params with
  | none =>
    rw [hp] at h
    rw [invoke_of_params_none rest hp, invoke_of_params_none rest (hm' ▸ hp), hm']
    exact replaceAnswer_of_all hs h
  | some params =>
    rw [hp] at h
    rw [invoke_of_params_some rest hp, invoke_of_params_some rest (hm' ▸ hp), hm']
    simp only at h
    cases hcall : readCall m.val params rest with
    | error e => rfl
    | ok call =>
      cases call with
      | none => rfl
      | some call =>
        simp only [hcall] at h
        obtain ⟨hargs, hnext⟩ := all_of_expandAll hs h
        show (call.args.mapM (t.expandUnder s')).bind _ = (call.args.mapM (t.expandUnder s)).bind _
        rw [hargs]
        cases hx : call.args.mapM (t.expandUnder s) with
        | error e => rfl
        | ok expanded =>
          rw [hx] at hnext
          exact replaceAnswer_of_all hs hnext

/-- Where nothing is gone on with, the name at the end does not matter. -/
theorem unaffected_resume {origin : String} {output rest : Text}
    (h : (resumeCode t s origin output rest).All (Unaffected name)) :
    Unaffected name (⟨s, .resume origin output rest⟩ : Frame t) := by
  intro s' hs
  rw [answer_resume, answer_resume]
  rw [resumeCode] at h
  cases he : t.enabled? s (trailingName output) with
  | none => rw [hs.enabled?_eq_none (by simp [he])]
  | some m =>
    simp only [he] at h
    split at h
    · next hm =>
      obtain ⟨⟨hne, hinvoke⟩, hrest⟩ := h
      obtain ⟨m', he', hm'⟩ := hs.enabled?_eq_some he hne
      simp only [he', hinvoke s' hs m' hm', hm', if_pos hm]
      revert hrest
      cases (Task.invoke m rest).answer with
      | error e => exact fun _ => rfl
      | ok x =>
        rcases x with _ | ⟨out, after⟩
        · exact fun _ => rfl
        · intro hrest
          simp only [hrest.1 s' hs]
    · next hm =>
      simp only [if_neg hm]
      cases he' : t.enabled? s' (trailingName output) with
      | none => rfl
      | some m' =>
        obtain ⟨m₁, he₁, hm₁, -⟩ := hs.exists_of_enabled? he'
        cases he.symm.trans he₁
        simp only [← hm₁, if_neg hm]

/-- **A macro that is not met may as well be disabled.** -/
theorem unaffected_of_avoids {f : Frame t} (h : Avoids name f) : Unaffected name f := by
  induction f using (wellFounded_calls t).induction with
  | _ f ih =>
    obtain ⟨huse, hcalls⟩ := avoids_iff.mp h
    have hall : f.2.code.All (Unaffected name) :=
      Code.all_iff.mpr fun g hg => ih g hg (Code.all_iff.mp hcalls g hg)
    obtain ⟨s, task⟩ := f
    cases task with
    | scan text => exact unaffected_scan hall
    | invoke m rest => exact unaffected_invoke huse hall
    | resume origin output rest => exact unaffected_resume hall

end Unaffected

theorem expandUnder_of_not_meets {text : Text} {name : String} (h : ¬t.Meets text name) :
    t.expandUnder [name] text = t.expand text := by
  have hadds : Adds name [] [name] := fun n => by simp
  have hscan : scan t [name] text = scan t [] text :=
    unaffected_of_avoids (not_meets_iff.mp h) [name] hadds
  rw [Table.expandUnder, hscan]
  rfl

/-! ### Names at the end -/

theorem trimEnd_of_isNameChar {w : Text} (h : ∀ c ∈ w, isNameChar c = true) :
    Text.trimEnd w = w := by
  have hword := Text.trimEnd_word (fun c hc => Condition.isSpace_of_isNameChar (h c hc)) []
  rwa [List.append_nil, Text.trimEnd, List.append_nil] at hword

/-- A name is the name that it ends with. -/
theorem trailingName_of_isName {w : Text} (h : Text.isName w = true) : trailingName w = w := by
  have hchars := Text.isNameChar_of_isName h
  rw [trailingName, trimEnd_of_isNameChar hchars,
    List.takeWhile_eq_self_iff.mpr fun c hc => hchars c (List.mem_reverse.mp hc),
    List.reverse_reverse]
  cases w with
  | nil => rfl
  | cons c w => simp [(Condition.isName_cons_iff.mp h).1]

theorem beforeTrailingName_of_isName {w : Text} (h : Text.isName w = true) :
    beforeTrailingName w = [] := by
  rw [beforeTrailingName, trailingName_of_isName h,
    trimEnd_of_isNameChar (Text.isNameChar_of_isName h), Nat.sub_self, List.take_zero]

section Resume

variable {origin : String} {output rest tail after : Text}

/-- The answer does not depend on the use that is gone on with, as long as that is one of a
macro without parameters. -/
theorem answer_resume_congr {origin' : String}
    (h : ∀ m, t.find? origin = some m → m.isFunctionLike = false)
    (h' : ∀ m, t.find? origin' = some m → m.isFunctionLike = false) :
    (Task.resume origin output rest : Task t disabled).answer =
      (Task.resume origin' output rest : Task t disabled).answer := by
  have hne : ∀ {origin : String} {m : Enabled t disabled} {word : Text},
      (∀ m, t.find? origin = some m → m.isFunctionLike = false) →
      t.enabled? disabled word = some m →
      (m.val.isFunctionLike && m.val.name != origin) = m.val.isFunctionLike := by
    intro origin m word h he
    by_cases hname : m.val.name = origin
    · simp [h _ (hname ▸ find?_name_of_enabled? he)]
    · simp [hname]
  induction hn : rest.length using Nat.strongRecOn generalizing output rest with
  | ind n ih =>
    subst hn
    rw [answer_resume, answer_resume]
    cases he : t.enabled? disabled (trailingName output) with
    | none => rfl
    | some m =>
      simp only [hne h he, hne h' he]
      split
      · next hm =>
        cases hx : (Task.invoke m rest).answer with
        | error e => rfl
        | ok x =>
          rcases x with _ | ⟨tail, after⟩
          · rfl
          · exact ih _ ((answer_invoke_eq_some_iff.mp hx).length_lt hm) rfl
      · rfl

/-- **Going on stops only where no arguments follow**, unless the name that is left is the one
that was gone on with. -/
theorem openParen?_of_resume
    (h : (Task.resume origin output rest : Task t disabled).answer = .ok (tail, after))
    {m : Enabled t disabled} (he : t.enabled? disabled (trailingName tail) = some m)
    (hm : m.val.isFunctionLike = true) (hne : m.val.name ≠ origin) : openParen? after = none := by
  refine resume_induction (P := fun origin _ _ x => ∀ m,
    t.enabled? disabled (trailingName x.1) = some m → m.val.isFunctionLike = true →
      m.val.name ≠ origin → openParen? x.2 = none) (fun hopen => hopen) ?_ h m he hm hne
  exact fun _ _ _ _ _ hbehind => hbehind

end Resume

/-! ### Words -/

section Words

variable {w rest : Text} {m : Enabled t disabled}

variable (t disabled) in
/-- What becomes of a word and the text behind it. -/
theorem expandUnder_word (hw : IsWord w rest) :
    t.expandUnder disabled (w ++ rest) =
      match t.enabled? disabled w with
      | none => (t.expandUnder disabled rest).map (w ++ ·)
      | some m =>
        match (Task.invoke m rest).answer with
        | .error e => .error e
        | .ok none => (t.expandUnder disabled rest).map (w ++ ·)
        | .ok (some (out, after)) => (t.expandUnder disabled after).map (out ++ ·) := by
  have hkept : (((scan t disabled rest).map (keep w)).map flatten).mapError Failure.error =
      (t.expandUnder disabled rest).map (w ++ ·) := by
    rw [Table.expandUnder]
    cases scan t disabled rest with
    | error e => rfl
    | ok ps => exact congrArg Except.ok (flatten_keep w ps)
  rw [Table.expandUnder, scan_word hw]
  cases t.enabled? disabled w with
  | none => exact hkept
  | some m =>
    dsimp only
    cases (Task.invoke m rest).answer with
    | error e => rfl
    | ok x =>
      rcases x with _ | ⟨out, after⟩
      · exact hkept
      · dsimp only
        rw [Table.expandUnder]
        cases scan t disabled after with
        | error e => rfl
        | ok ps => rfl

/-- What becomes of a use of a macro without parameters: its replacement text is read, the
outcome is resumed, and the text behind it is read. -/
theorem expandUnder_of_params_none (hw : IsWord w rest) (he : t.enabled? disabled w = some m)
    (hp : m.val.params = none) :
    t.expandUnder disabled (w ++ rest) =
      (t.expandUnder (m.val.name :: disabled) (render [] [] m.val.body)).bind fun u =>
        (Task.resume m.val.name u rest : Task t disabled).answer.bind fun x =>
          (t.expandUnder disabled x.2).map (x.1 ++ ·) := by
  have hanswer : (Task.invoke m rest).answer = replaceAnswer t disabled m.val [] [] rest :=
    invoke_of_params_none rest hp
  rw [expandUnder_word t disabled hw, he]
  dsimp only
  rw [hanswer, replaceAnswer_eq]
  cases t.expandUnder (m.val.name :: disabled) (render [] [] m.val.body) with
  | error e => rfl
  | ok u =>
    simp only [Except.bind]
    cases (Task.resume m.val.name u rest : Task t disabled).answer with
    | error e => rfl
    | ok x => rfl

theorem expandUnder_empty : t.expandUnder disabled [] = .ok [] := by
  rw [Table.expandUnder, scan]
  rfl

/-- A macro without parameters becomes its replacement text, read with the macro disabled. -/
theorem expandUnder_of_params_none_nil (hw : IsWord w []) (he : t.enabled? disabled w = some m)
    (hp : m.val.params = none) :
    t.expandUnder disabled w =
      t.expandUnder (m.val.name :: disabled) (render [] [] m.val.body) := by
  have hexpand := expandUnder_of_params_none hw he hp
  rw [List.append_nil] at hexpand
  rw [hexpand]
  cases t.expandUnder (m.val.name :: disabled) (render [] [] m.val.body) with
  | error e => rfl
  | ok u =>
    simp only [Except.bind, Task.answer, resume_nil, Except.map, expandUnder_empty,
      List.append_nil]

/-- A word that names no macro, or one with parameters, stays as it is at the end of a text. -/
theorem expandUnder_of_isWord (hw : IsWord w [])
    (h : ∀ f, t.enabled? disabled w = some f → f.val.isFunctionLike = true) :
    t.expandUnder disabled w = .ok w := by
  have hexpand := expandUnder_word t disabled hw
  have hkept : (t.expandUnder disabled []).map (w ++ ·) = .ok w := by
    rw [expandUnder_empty]
    exact congrArg Except.ok (List.append_nil w)
  rw [List.append_nil] at hexpand
  rw [hexpand]
  cases he : t.enabled? disabled w with
  | none => exact hkept
  | some f =>
    have hanswer : (Task.invoke f []).answer = .ok none :=
      answer_invoke_eq_none_iff.mpr ⟨h f he, rfl⟩
    simp only [hanswer]
    exact hkept

/-- Nothing else comes up in a word that names no macro, or one with parameters. -/
theorem not_meets_of_isWord {name : String} (hw : IsWord w [])
    (h : ∀ f, t.enabled? [] w = some f → f.val.isFunctionLike = true ∧ f.val.name ≠ name) :
    ¬t.Meets w name := by
  have hend : Avoids name (⟨[], .scan []⟩ : Frame t) := avoids_iff.mpr ⟨nofun, trivial⟩
  have hcode : scanCode t [] (w ++ []) = _ := scanCode_word hw
  rw [List.append_nil] at hcode
  rw [not_meets_iff, avoids_iff]
  refine ⟨nofun, ?_⟩
  show (scanCode t [] w).All (Avoids name)
  rw [hcode]
  cases hf : t.enabled? [] w with
  | none => exact ⟨hend, trivial⟩
  | some f =>
    obtain ⟨hfun, hne⟩ := h f hf
    have hinvoke : Avoids name (⟨[], .invoke f []⟩ : Frame t) := by
      refine avoids_iff.mpr ⟨hne, ?_⟩
      show (invokeCode t [] f.val []).All (Avoids name)
      obtain ⟨params, hp⟩ := Option.isSome_iff_exists.mp hfun
      rw [invokeCode, hp]
      exact trivial
    have hanswer : (Task.invoke f []).answer = .ok none :=
      answer_invoke_eq_none_iff.mpr ⟨hfun, rfl⟩
    refine ⟨hinvoke, ?_⟩
    rw [hanswer]
    exact ⟨hend, trivial⟩

end Words

/-! ### Going on behind a word -/

/-- What becomes of a word that the use of a macro has been replaced by, and of the text behind
the use: the word is read, the outcome is resumed, and what is left of the text is read. -/
def Table.expandOn (t : Table) (disabled : List String) (origin : String) (w rest : Text) :
    Except Error Text :=
  (t.expandUnder disabled w).bind fun u =>
    (Task.resume origin u rest : Task t disabled).answer.bind fun x =>
      (t.expandUnder disabled x.2).map (x.1 ++ ·)

section Alias

variable {origin : String} {w rest : Text}

theorem expandOn_of_eq {u out after : Text} (hw : t.expandUnder disabled w = .ok u)
    (hu : (Task.resume origin u rest : Task t disabled).answer = .ok (out, after)) :
    t.expandOn disabled origin w rest = (t.expandUnder disabled after).map (out ++ ·) := by
  rw [Table.expandOn, hw]
  simp only [Except.bind, hu]

/-- A word that names no macro is kept, and what it ends with is not the name of a macro with
parameters. -/
theorem expandOn_of_enabled?_eq_none (hw : IsWord w rest) (he : t.enabled? disabled w = none)
    (hnumber : ∀ f, t.find? (String.ofList (trailingName w)) = some f →
      f.isFunctionLike = true → Text.isName w = true) :
    t.expandOn disabled origin w rest = t.expandUnder disabled (w ++ rest) := by
  have hkept : t.expandUnder disabled w = .ok w :=
    expandUnder_of_isWord (hw.of_isPrefix List.nil_prefix) (by simp [he])
  have hresume : (Task.resume origin w rest : Task t disabled).answer = .ok (w, rest) := by
    refine answer_resume_eq_ok_iff.mpr (.inl ⟨rfl, fun f hf hfun _ => ?_⟩)
    have hname := hnumber f.val (enabled?_eq_some_iff.mp hf).1 hfun
    rw [trailingName_of_isName hname, he] at hf
    cases hf
  rw [expandOn_of_eq hkept hresume, expandUnder_word t disabled hw, he]

/-- The replacement of a macro without parameters is resumed alike, whichever use is gone on
with. -/
theorem expandOn_of_params_none {f : Enabled t disabled} (hw : IsWord w rest)
    (hf : t.enabled? disabled w = some f) (hp : f.val.params = none)
    (horigin : ∀ k, t.find? origin = some k → k.isFunctionLike = false) :
    t.expandOn disabled origin w rest = t.expandUnder disabled (w ++ rest) := by
  have hname : ∀ k, t.find? f.val.name = some k → k.isFunctionLike = false := by
    intro k hk
    cases (find?_name_of_enabled? hf).symm.trans hk
    rw [isFunctionLike, hp]
    rfl
  rw [expandUnder_of_params_none hw hf hp,
    ← expandUnder_of_params_none_nil (hw.of_isPrefix List.nil_prefix) hf hp]
  simp only [Table.expandOn, answer_resume_congr horigin hname]

/-- A use of a macro with parameters is found at the end of the replacement as it is in the
text, and it is left at the same place. -/
theorem expandOn_of_isFunctionLike {f : Enabled t disabled} (hw : IsWord w rest)
    (hf : t.enabled? disabled w = some f) (hfun : f.val.isFunctionLike = true)
    (horigin : ∀ k, t.find? origin = some k → k.isFunctionLike = false)
    (hagain : ∀ tail after, Used f rest (tail, after) → trailingName tail = w →
      openParen? after = none) :
    t.expandOn disabled origin w rest = t.expandUnder disabled (w ++ rest) := by
  obtain ⟨hfind, hname⟩ := enabled?_eq_some_iff.mp hf
  have hword := (Table.find?_eq_some hfind).2
  have hne : f.val.name ≠ origin := by
    rintro rfl
    cases (horigin _ (find?_name_of_enabled? hf)).symm.trans hfun
  have hkept : t.expandUnder disabled w = .ok w :=
    expandUnder_of_isWord (hw.of_isPrefix List.nil_prefix) (by simp [hf, hfun])
  have hresume : (Task.resume origin w rest : Task t disabled).answer = _ :=
    answer_resume origin w rest
  simp only [trailingName_of_isName hname, hf] at hresume
  rw [if_pos (by simp [hfun, hne])] at hresume
  have hexpand := expandUnder_word t disabled hw
  simp only [hf] at hexpand
  rw [hexpand]
  cases hanswer : (Task.invoke f rest).answer with
  | error e =>
    simp only [hanswer] at hresume
    rw [Table.expandOn, hkept]
    simp only [Except.bind, hresume]
  | ok x =>
    rcases x with _ | ⟨tail, after⟩
    · simp only [hanswer] at hresume
      exact expandOn_of_eq hkept hresume
    · -- The use has been resumed already, and so nothing is left to go on with.
      simp only [hanswer] at hresume
      rw [beforeTrailingName_of_isName hname, List.nil_append] at hresume
      have hused := answer_invoke_eq_some_iff.mp hanswer
      have hstop : (Task.resume origin tail after : Task t disabled).answer =
          .ok (tail, after) := by
        refine answer_resume_eq_ok_iff.mpr (.inl ⟨rfl, fun k hk hkfun _ => ?_⟩)
        by_cases heq : k.val.name = f.val.name
        · rw [(Table.find?_eq_some (enabled?_eq_some_iff.mp hk).1).2, hword,
            String.ofList_inj] at heq
          exact hagain tail after hused heq
        · obtain ⟨-, -, -, hr⟩ := hused
          exact openParen?_of_resume hr hk hkfun heq
      exact expandOn_of_eq hkept (hresume.trans hstop)

/-- **A word that a macro stands for is read together with the text behind the macro.** -/
theorem expandOn_eq (hw : IsWord w rest)
    (horigin : ∀ k, t.find? origin = some k → k.isFunctionLike = false)
    (hnumber : ∀ f, t.find? (String.ofList (trailingName w)) = some f →
      f.isFunctionLike = true → Text.isName w = true)
    (hagain : ∀ f tail after, t.enabled? disabled w = some f → f.val.isFunctionLike = true →
      Used f rest (tail, after) → trailingName tail = w → openParen? after = none) :
    t.expandOn disabled origin w rest = t.expandUnder disabled (w ++ rest) := by
  cases hf : t.enabled? disabled w with
  | none => exact expandOn_of_enabled?_eq_none hw hf hnumber
  | some f =>
    cases hp : f.val.params with
    | none => exact expandOn_of_params_none hw hf hp horigin
    | some params =>
      have hfun : f.val.isFunctionLike = true := by rw [isFunctionLike, hp]; rfl
      exact expandOn_of_isFunctionLike hw hf hfun horigin fun tail after =>
        hagain f tail after hf hfun

/-- A macro that stands for a word is resumed with the word. -/
theorem expand_eq_expandOn {m : Macro} (hfind : t.find? m.name = some m)
    (hname : Text.isName m.name.toList = true) (hp : m.params = none)
    (hbody : render [] [] m.body = w) (hrest : ∀ c ∈ rest.head?, isNameChar c = false)
    (hmet : ¬t.Meets w m.name) :
    t.expand (m.name.toList ++ rest) = t.expandOn [] m.name w rest := by
  have hword : IsWord m.name.toList rest := isWord_of_isName hname hrest
  obtain ⟨e, he, rfl⟩ := enabled?_of_find? hfind hname (List.not_mem_nil (a := m.name))
  rw [← Table.expandUnder_nil, expandUnder_of_params_none hword he hp, hbody,
    expandUnder_of_not_meets hmet]
  rfl

/-- **A macro that stands for a word is read as the word is**, together with the text behind
it, if reading the word does not come to the macro.  The name that the word ends with is the
word, if it is the name of a macro with parameters, and what that macro is replaced by does not
end in its own name in front of more arguments. -/
theorem expand_alias {m : Macro} (hfind : t.find? m.name = some m)
    (hname : Text.isName m.name.toList = true) (hp : m.params = none)
    (hbody : render [] [] m.body = w) (hw : IsWord w rest) (hmet : ¬t.Meets w m.name)
    (hnumber : ∀ f, t.find? (String.ofList (trailingName w)) = some f →
      f.isFunctionLike = true → Text.isName w = true)
    (hagain : ∀ f tail after, t.enabled? [] w = some f → f.val.isFunctionLike = true →
      Used f rest (tail, after) → trailingName tail = w → openParen? after = none) :
    t.expand (m.name.toList ++ rest) = t.expand (w ++ rest) := by
  have horigin : ∀ k, t.find? m.name = some k → k.isFunctionLike = false := by
    intro k hk
    cases hfind.symm.trans hk
    rw [isFunctionLike, hp]
    rfl
  rw [expand_eq_expandOn hfind hname hp hbody hw.stop hmet]
  exact expandOn_eq hw horigin hnumber hagain

end Alias

/-! ### A macro with brackets, and two exceptions -/

/-- What a use with one argument is replaced by. -/
theorem used_of_isArgument {m : Enabled t disabled} {param : String} (arg : Text)
    {rest after u v : Text} {x : Text × Text} (hp : m.val.params = some [param])
    (hm : m.val.variadic = false)
    (hrest : openParen? rest = some (arg ++ ')' :: after)) (harg : isArgument 0 arg = true)
    (hu : t.expandUnder disabled (Text.trim arg) = .ok u)
    (hv : t.expandUnder (m.val.name :: disabled) (render [Text.trim arg] [u] m.val.body) = .ok v)
    (hresume : (Task.resume m.val.name v after : Task t disabled).answer = .ok x) :
    Used m rest x := by
  have hanswer : (Task.invoke m rest).answer = _ := invoke_of_isArgument hp hm hrest harg
  rw [hu] at hanswer
  refine answer_invoke_eq_some_iff.mp (hanswer.trans ?_)
  show replaceAnswer t disabled m.val [Text.trim arg] [u] after = _
  rw [replaceAnswer_eq, hv]
  exact congrArg (Except.map some) hresume

theorem Used.unique {m : Enabled t disabled} {rest : Text} {x y : Text × Text}
    (hx : Used m rest x) (hy : Used m rest y) : x = y := by
  have h := (answer_invoke_eq_some_iff.mpr hx).symm.trans (answer_invoke_eq_some_iff.mpr hy)
  simpa using h

/-- A name stands for the macro with brackets. -/
theorem expand_alias_bracketTable :
    ¬bracketTable.Meets ['F'] "G" ∧
      bracketTable.expand "G(1)".toList = bracketTable.expand "F(1)".toList := by
  let f : Enabled bracketTable [] := ⟨bracketMacro, by decide, by decide⟩
  have hf : bracketTable.enabled? [] ['F'] = some f := by cbv
  have hused : Used f "(1)".toList ("[1]".toList, []) :=
    used_of_isArgument ['1'] rfl rfl rfl (by decide) (by cbv) (by cbv) (by cbv)
  have hmet : ¬bracketTable.Meets ['F'] "G" := by
    refine not_meets_of_isWord (isWord_singleton (by decide) (by simp)) fun k hk => ?_
    cases hf.symm.trans hk
    exact ⟨rfl, by decide⟩
  have hword : IsWord ['F'] "(1)".toList :=
    isWord_singleton (by decide) (by rintro c ⟨⟩; decide)
  refine ⟨hmet, expand_alias (m := ⟨"G", none, false, [.text ['F']]⟩) rfl (by decide) rfl rfl hword
    hmet (fun _ _ _ => by decide) ?_⟩
  intro k tail after hk _ hused' _
  cases hf.symm.trans hk
  cases hused.unique hused'
  rfl

/-- A macro without parameters stands for a number that ends in the name of another one. -/
def numberTable : Table := ⟨[bracketMacro, ⟨"A", none, false, [.text ['3', 'F']]⟩]⟩

/-- A macro without parameters stands for the name of another one, which is replaced by its own
name. -/
def selfTable : Table :=
  ⟨[⟨"F", some ["x"], false, [.text ['F']]⟩, ⟨"A", none, false, [.text ['F']]⟩]⟩

theorem expandOn_numberTable :
    numberTable.expandOn [] "A" ['3', 'F'] "(1)".toList = .ok "3[1]".toList := by
  let f : Enabled numberTable [] := ⟨bracketMacro, by decide, by decide⟩
  have hused : Used f "(1)".toList ("[1]".toList, []) :=
    used_of_isArgument ['1'] rfl rfl rfl (by decide) (by cbv) (by cbv) (by cbv)
  have hresume : (Task.resume "A" ['3', 'F'] "(1)".toList : Task numberTable []).answer =
      .ok ("3[1]".toList, []) :=
    answer_resume_eq_ok_iff.mpr (.inr ⟨f, _, _, by cbv, rfl, by decide, hused, by cbv⟩)
  rw [expandOn_of_eq (by cbv) hresume]
  cbv

theorem expandOn_selfTable :
    selfTable.expandOn [] "A" ['F'] "(1)(2)".toList = .ok "F".toList ∧
      selfTable.expand "F(1)(2)".toList = .ok "F(2)".toList := by
  let f : Enabled selfTable [] := ⟨⟨"F", some ["x"], false, [.text ['F']]⟩, by decide, by decide⟩
  have hf : selfTable.enabled? [] ['F'] = some f := by cbv
  have hfirst : Used f "(1)(2)".toList (['F'], "(2)".toList) :=
    used_of_isArgument ['1'] rfl rfl rfl (by decide) (by cbv) (by cbv) (by cbv)
  have hsecond : Used f "(2)".toList (['F'], []) :=
    used_of_isArgument ['2'] rfl rfl rfl (by decide) (by cbv) (by cbv) (by cbv)
  constructor
  · have hlast : (Task.resume "A" ['F'] "(2)".toList : Task selfTable []).answer =
        .ok (['F'], []) :=
      answer_resume_eq_ok_iff.mpr (.inr ⟨f, _, _, hf, rfl, by decide, hsecond, by cbv⟩)
    have hresume : (Task.resume "A" ['F'] "(1)(2)".toList : Task selfTable []).answer =
        .ok (['F'], []) :=
      answer_resume_eq_ok_iff.mpr (.inr ⟨f, _, _, hf, rfl, by decide, hfirst, hlast⟩)
    rw [expandOn_of_eq (by cbv) hresume]
    cbv
  · have hword : IsWord ['F'] "(1)(2)".toList :=
      isWord_singleton (by decide) (by rintro c ⟨⟩; decide)
    have hexpand := expandUnder_word selfTable [] hword
    simp only [hf, answer_invoke_eq_some_iff.mpr hfirst] at hexpand
    refine hexpand.trans ?_
    cbv

/-- A number that ends in a name takes arguments at the end of a replacement and not in the
text.  A name that its macro is replaced by takes arguments twice at the end of a replacement
and once in the text. -/
theorem expand_alias_ne :
    (numberTable.expand "A(1)".toList = .ok "3[1]".toList ∧
      numberTable.expand "3F(1)".toList = .ok "3F(1)".toList ∧
      ¬numberTable.Meets "3F".toList "A") ∧
    selfTable.expand "A(1)(2)".toList = .ok "F".toList ∧
      selfTable.expand "F(1)(2)".toList = .ok "F(2)".toList ∧ ¬selfTable.Meets "F".toList "A" := by
  have hnumber : ¬numberTable.Meets ['3', 'F'] "A" := by
    have hword : IsWord ['3', 'F'] [] :=
      ⟨by decide, List.all_eq_true.mp (by decide), by simp⟩
    have hnone : numberTable.enabled? [] ['3', 'F'] = none := by cbv
    exact not_meets_of_isWord hword (by simp [hnone])
  have hself : ¬selfTable.Meets ['F'] "A" := by
    have hf : (selfTable.enabled? [] ['F']).map (fun f => (f.val.isFunctionLike, f.val.name)) =
        some (true, "F") := by cbv
    refine not_meets_of_isWord (isWord_singleton (by decide) (by simp)) fun f he => ?_
    rw [he] at hf
    simp only [Option.map_some, Option.some.injEq, Prod.mk.injEq] at hf
    exact ⟨hf.1, by simp [hf.2]⟩
  refine ⟨⟨?_, by cbv, hnumber⟩, ?_, expandOn_selfTable.2, hself⟩
  · exact (expand_eq_expandOn (m := ⟨"A", none, false, [.text ['3', 'F']]⟩) rfl (by decide) rfl rfl
      (by rintro c ⟨⟩; decide) hnumber).trans expandOn_numberTable
  · exact (expand_eq_expandOn (m := ⟨"A", none, false, [.text ['F']]⟩) rfl (by decide) rfl rfl
      (by rintro c ⟨⟩; decide) hself).trans expandOn_selfTable.1

end PixelWrap.Macro
