import PixelWrap.Proofs.ArgumentLists
import PixelWrap.Proofs.Identity

/-!
# Macros that are not mentioned

Whether replacing macros comes to a use of some macro depends on the whole run.  It does not, if
the macro is not mentioned: its name stands neither in the text nor in the replacement text of
another macro.

There is one catch.  What a use is replaced by is joined to the text behind it, and where a name
follows right behind the parenthesis that closes the use, the two make up a new name: with a macro
`F(x)` for `x`, the text `F(A)B` becomes `AB`.  So no name may stand right behind a parenthesis.
In front of a use there is no such catch, as a use starts with a name of its own.  A number in
front of a name at the end of a replacement does no harm either, as what starts in a digit is no
name.

Marks for pasting and quoting are left out here: the former are there to make new names, and what
the latter make is a literal.

## Main definitions

* `Text.Lacks`: a name is not in the text, and no name stands right behind a parenthesis.
* `Text.Becomes`: a text without the name becomes another one.
* `Macro.Table.Unmentioned`: no other macro mentions the macro.
* `Macro.Quiet`, `Macro.Keeps`: a task starts and ends without the name.

## Main results

* `Text.Lacks.append`: where two texts make up no new name.
* `Macro.lacks_render`: arguments make up no new name with a replacement text.
* `Macro.keeps_of_quiet`: **tasks that start without the name end without it.**
* `Macro.not_meets_of_unmentioned`: **a macro that is not mentioned is not met.**
* `Macro.expand_of_unmentioned`: a macro that is not mentioned is read as the word is that it
  stands for.
-/

namespace PixelWrap

open Macro (startsInName endsInName IsWord)

namespace Text

/-! ### Texts without a name -/

/-- The name does not stand in the text, not even in a literal, and nothing that a name could be
made of stands right behind a parenthesis that closes. -/
structure Lacks (w t : Text) : Prop where
  notWordAt (n : Nat) : ¬WordAt w n t
  apart {u v : Text} : t = u ++ v → u.getLast? = some ')' → startsInName v = false

section Lacks

variable {w w' s t u rest out : Text} {c : Char}

theorem lacks_nil : Lacks w [] := by
  refine ⟨?_, ?_⟩
  · rintro n ⟨before, after, heq, -, hname, -, -⟩
    obtain rfl : w = [] := by simp_all
    cases hname
  · intro u v heq hu
    obtain ⟨rfl, rfl⟩ := List.append_eq_nil_iff.mp heq.symm
    cases hu

/-- A part of a text lacks the name, if it does not start within a name. -/
theorem Lacks.right (h : Lacks w (s ++ t)) (hs : startsInName t = true → endsInName s = false) :
    Lacks w t where
  notWordAt n hn := h.notWordAt _ (hn.append hs)
  apart {u v} heq hu := by
    refine h.apart (u := s ++ u) (by rw [heq, List.append_assoc]) ?_
    rw [List.getLast?_append, hu]
    rfl

/-- A part of a text lacks the name, if it does not end within a name. -/
theorem Lacks.left (h : Lacks w (s ++ t)) (hs : startsInName t = true → endsInName s = false) :
    Lacks w s where
  notWordAt n := by
    rintro ⟨before, after, rfl, hn, hname, hb, ha⟩
    refine h.notWordAt n ⟨before, after ++ t, by simp, hn, hname, hb, ?_⟩
    refine Macro.startsInName_append_of ha fun hnil => ?_
    rw [Bool.eq_false_iff]
    intro ht
    have hend := hs ht
    rw [hnil, List.append_nil, endsInName_of_isName hname] at hend
    cases hend
  apart {u v} heq hu := by
    have happend := h.apart (u := u) (v := v ++ t) (by rw [heq, List.append_assoc]) hu
    cases v with
    | nil => rfl
    | cons c v => exact happend

/-- So do the parts at both sides of a mark. -/
theorem Lacks.of_mark (h : Lacks w (s ++ c :: t)) (hc : isNameChar c = false) :
    Lacks w s ∧ Lacks w t := by
  constructor
  · refine h.left fun hstart => ?_
    rw [Macro.startsInName_cons, hc] at hstart
    cases hstart
  · rw [← List.singleton_append, ← List.append_assoc] at h
    exact h.right fun _ => by rw [Macro.endsInName_concat, hc]

/-- **Two texts make up no new name**, unless a name follows right behind another one or behind a
parenthesis. -/
theorem Lacks.append (hs : Lacks w s) (ht : Lacks w t)
    (hborder : startsInName t = true → endsInName s = false ∧ s.getLast? ≠ some ')') :
    Lacks w (s ++ t) where
  notWordAt n hn := by
    by_cases hle : size s ≤ n
    · exact ht.notWordAt _ (hn.of_append_of_le hle)
    · obtain ⟨before, after, heq, rfl, hname, hb, ha⟩ := hn
      obtain ⟨x, rfl, hx⟩ := exists_of_append_eq ((List.append_assoc ..).symm.trans heq.symm)
        (Nat.le_of_not_le hle)
      rcases List.append_eq_append_iff.mp hx with ⟨y, rfl, rfl⟩ | ⟨y, rfl, rfl⟩
      · refine hs.notWordAt _ ⟨before, y, by rw [List.append_assoc], rfl, hname, hb, ?_⟩
        cases y with
        | nil => rfl
        | cons c y => exact ha
      · cases y with
        | nil =>
          rw [List.append_nil] at hname
          exact hs.notWordAt _ ⟨before, [], by simp, rfl, by simpa using hname, hb, rfl⟩
        | cons c y =>
          -- The name would go on behind the border.
          have hchars := isNameChar_of_isName hname
          have hend := (hborder (hchars c (by simp))).1
          obtain rfl := eq_nil_of_endsInName (fun d hd => hchars d (List.mem_append_left _ hd))
            (Macro.endsInName_of_append hend)
          rw [List.append_nil] at hle
          exact hle le_rfl
  apart {u v} heq hu := by
    have hstart : ∀ {v}, t = v → s.getLast? = some ')' → startsInName v = false := by
      rintro v rfl hlast
      rw [Bool.eq_false_iff]
      exact fun hname => (hborder hname).2 hlast
    rcases List.append_eq_append_iff.mp heq with ⟨x, rfl, rfl⟩ | ⟨x, rfl, rfl⟩
    · cases x with
      | nil =>
        rw [List.append_nil] at hu
        exact hstart rfl hu
      | cons c x =>
        rw [List.getLast?_append, List.getLast?_cons, Option.some_or] at hu
        exact ht.apart rfl (by rw [List.getLast?_cons, hu])
    · cases x with
      | nil => exact hstart rfl (by rwa [List.append_nil])
      | cons c x => exact hs.apart (v := c :: x) rfl hu

/-- Characters that belong to no name do not matter. -/
theorem lacks_of_marks (hs : ∀ c ∈ s, isNameChar c = false) : Lacks w s := by
  refine ⟨fun n hn => ?_, fun {u v} heq _ => ?_⟩
  · rw [← List.append_nil s] at hn
    obtain ⟨k, -, hk⟩ := hn.of_append hs
    exact lacks_nil.notWordAt k hk
  · cases v with
    | nil => rfl
    | cons c v => exact hs c (by simp [heq])

/-- A word lacks all names but itself. -/
theorem lacks_of_isWord (hw : IsWord w' []) (hne : w ≠ w') : Lacks w w' := by
  refine ⟨fun n hn => ?_, fun {u v} heq hu => ?_⟩
  · rw [← List.append_nil w'] at hn
    rcases Nat.lt_or_ge n (size w') with hlt | hge
    · exact hne (hn.eq_of_lt hw hlt).1
    · exact lacks_nil.notWordAt _ (hn.of_append_of_le hge)
  · have hmem : ')' ∈ w' := heq ▸ List.mem_append_left v (List.mem_of_getLast? hu)
    cases hw.chars _ hmem

/-- What starts in a digit is no name. -/
theorem Lacks.digits_append (h : Lacks w t) {ds : Text}
    (hds : ∀ c ∈ ds, isNameChar c = true ∧ isNameStart c = false) : Lacks w (ds ++ t) := by
  induction ds with
  | nil => exact h
  | cons c ds ih =>
    obtain ⟨⟨hc, hstart⟩, hds⟩ := List.forall_mem_cons.mp hds
    have hrest := ih hds
    refine ⟨fun n hn => ?_, fun {u v} heq hu => ?_⟩
    · rcases hn.of_cons with rfl | ⟨k, -, hk, -⟩
      · obtain ⟨after, heq, -⟩ := hn.exists_of_zero
        have hname := hn.isName
        cases w with
        | nil => cases hname
        | cons d w =>
          obtain ⟨rfl, -⟩ := List.cons.inj heq
          rw [(Condition.isName_cons_iff.mp hname).1] at hstart
          cases hstart
      · exact hrest.notWordAt k hk
    · cases u with
      | nil => cases hu
      | cons d u =>
        obtain ⟨rfl, htail⟩ := List.cons.inj heq
        cases u with
        | nil =>
          cases hu
          cases hc
        | cons d u => exact hrest.apart htail (by rwa [List.getLast?_cons_cons] at hu)

/-- Pieces lack the name if and only if they do so with something between them that belongs to no
name. -/
theorem lacks_join_iff {sep : Text} (hne : sep ≠ [])
    (hsep : ∀ c ∈ sep, isNameChar c = false ∧ c ≠ ')') {ps : List Text} :
    Lacks w (join sep ps) ↔ ∀ p ∈ ps, Lacks w p := by
  have hlast : ∀ p, endsInName (p ++ sep) = false ∧ (p ++ sep).getLast? ≠ some ')' := by
    intro p
    obtain ⟨hname, hmark⟩ := hsep _ (List.getLast_mem hne)
    rw [Macro.endsInName_append hne, endsInName, List.getLast?_append,
      List.getLast?_eq_some_getLast hne, Option.some_or, Option.any_some]
    exact ⟨hname, fun heq => hmark (Option.some.inj heq)⟩
  have hstart : ∀ t, ¬startsInName (sep ++ t) = true := by
    intro t
    obtain ⟨c, sep, rfl⟩ := List.exists_cons_of_ne_nil hne
    rw [List.cons_append, Macro.startsInName_cons, (hsep c (List.mem_cons_self ..)).1]
    exact Bool.false_ne_true
  induction ps with
  | nil => exact iff_of_true lacks_nil (List.forall_mem_nil _)
  | cons p ps ih =>
    cases ps with
    | nil => simp [join]
    | cons q ps =>
      rw [join_cons_cons, List.forall_mem_cons]
      constructor
      · intro h
        refine ⟨?_, ih.mp (h.right fun _ => (hlast p).1)⟩
        rw [List.append_assoc] at h
        exact h.left fun hs => absurd hs (hstart _)
      · rintro ⟨hp, hps⟩
        have hmarks : Lacks w sep := lacks_of_marks fun c hc => (hsep c hc).1
        have hfront := hp.append hmarks fun hs => absurd (by rwa [List.append_nil]) (hstart [])
        exact hfront.append (ih.mpr hps) fun _ => hlast p

/-- What is left of a text without the white space at its end. -/
theorem exists_trimEnd_append (t : Text) : ∃ s, t = trimEnd t ++ s ∧ ∀ c ∈ s, isSpace c = true := by
  fun_induction trimEnd t with
  | case1 => exact ⟨[], rfl, List.forall_mem_nil _⟩
  | case2 c r hnil hc ih =>
    obtain ⟨s, hs, hspace⟩ := ih
    rw [hnil] at hs
    exact ⟨c :: r, rfl, List.forall_mem_cons.mpr ⟨hc, by rwa [hs]⟩⟩
  | case3 c r hnil hc ih =>
    obtain ⟨s, hs, hspace⟩ := ih
    rw [hnil] at hs
    exact ⟨s, by rw [hs]; rfl, hspace⟩
  | case4 c r hne ih =>
    obtain ⟨s, hs, hspace⟩ := ih
    exact ⟨s, congrArg (c :: ·) hs, hspace⟩

/-- White space belongs to no name. -/
theorem isNameChar_of_isSpace {c : Char} (h : isSpace c = true) : isNameChar c = false := by
  rw [Bool.eq_false_iff]
  intro hc
  rw [Condition.isSpace_of_isNameChar hc] at h
  cases h

theorem endsInName_of_marks (hs : ∀ c ∈ s, isNameChar c = false) : endsInName s = false := by
  by_cases hne : s = []
  · rw [hne]
    rfl
  · rw [endsInName, List.getLast?_eq_some_getLast hne, Option.any_some]
    exact hs _ (List.getLast_mem hne)

theorem startsInName_of_marks (hs : ∀ c ∈ s, isNameChar c = false) : startsInName s = false := by
  cases s with
  | nil => rfl
  | cons c s => exact hs c (List.mem_cons_self ..)

theorem Lacks.trimEnd (h : Lacks w t) : Lacks w (trimEnd t) := by
  obtain ⟨s, hs, hspace⟩ := exists_trimEnd_append t
  rw [hs] at h
  refine h.left fun hstart => ?_
  rw [startsInName_of_marks fun c hc => isNameChar_of_isSpace (hspace c hc)] at hstart
  cases hstart

theorem Lacks.trim (h : Lacks w t) : Lacks w (trim t) := by
  rw [← List.takeWhile_append_dropWhile (p := isSpace) (l := t)] at h
  refine (h.right fun _ => endsInName_of_marks fun c hc => ?_).trimEnd
  exact isNameChar_of_isSpace (List.mem_takeWhile_imp hc)

end Lacks

/-! ### What a text becomes -/

/-- The text becomes one that lacks the name, and it does not start in a name unless the text
did. -/
structure Becomes (w t out : Text) : Prop where
  lacks : Lacks w out
  start : startsInName t = false → startsInName out = false

section Becomes

variable {w s t rest out : Text}

theorem becomes_nil : Becomes w [] [] := ⟨lacks_nil, id⟩

/-- What is kept makes up no new name with what the text behind it becomes. -/
theorem Becomes.append (hout : Becomes w rest out) (h : Lacks w (s ++ rest)) (hne : s ≠ [])
    (hs : startsInName rest = true → endsInName s = false) :
    Becomes w (s ++ rest) (s ++ out) := by
  refine ⟨(h.left hs).append hout.lacks fun hstart => ?_, fun hstart => ?_⟩
  · have hrest : startsInName rest = true := by
      rw [← Bool.not_eq_false]
      intro hrest
      rw [hout.start hrest] at hstart
      cases hstart
    refine ⟨hs hrest, fun hlast => ?_⟩
    rw [h.apart rfl hlast] at hrest
    cases hrest
  · obtain ⟨c, s, rfl⟩ := List.exists_cons_of_ne_nil hne
    exact hstart

/-- Behind a word, a text lacks the name as well. -/
theorem Lacks.of_isWord {w' : Text} (h : Lacks w (w' ++ rest)) (hw : IsWord w' rest) :
    Lacks w rest :=
  h.right fun hstart => by simp [hw.startsInName_rest] at hstart

theorem Becomes.word {w' : Text} (hout : Becomes w rest out) (h : Lacks w (w' ++ rest))
    (hw : IsWord w' rest) : Becomes w (w' ++ rest) (w' ++ out) :=
  hout.append h hw.ne_nil fun hstart => by simp [hw.startsInName_rest] at hstart

theorem Becomes.mark {c : Char} (hout : Becomes w rest out) (h : Lacks w (c :: rest))
    (hc : isNameChar c = false) : Becomes w (c :: rest) (c :: out) :=
  hout.append (s := [c]) h (List.cons_ne_nil c []) fun _ => hc

theorem Lacks.of_literal {r : Text} (h : Lacks w ('"' :: r)) : Lacks w (Quoted.split r).2 := by
  rw [← Quoted.literal_append] at h
  exact h.right Macro.endsInName_literal

theorem Becomes.literal {r : Text} (hout : Becomes w (Quoted.split r).2 out)
    (h : Lacks w ('"' :: r)) :
    Becomes w ('"' :: r) ('"' :: (Quoted.split r).1 ++ out) := by
  rw [← Quoted.literal_append] at h
  have hbecomes := hout.append h (List.cons_ne_nil _ _) Macro.endsInName_literal
  rwa [Quoted.literal_append] at hbecomes

/-- What a word is replaced by makes up no new name with what the text behind it becomes. -/
theorem Becomes.use {w' after : Text} (hout : Becomes w after out) (hs : Lacks w s)
    (hw : IsWord w' rest) (hafter : startsInName after = false) :
    Becomes w (w' ++ rest) (s ++ out) := by
  refine ⟨hs.append hout.lacks fun hstart => ?_, fun hstart => ?_⟩
  · rw [hout.start hafter] at hstart
    cases hstart
  · rw [hw.startsInName] at hstart
    cases hstart

end Becomes

end Text

namespace Macro

open Text (Lacks Becomes)

variable {t : Table} {w : Text}

/-! ### Arguments -/

/-- The text behind a name lacks the name `w`, and it does not go on with a name. -/
def Behind (w rest : Text) : Prop := Lacks w rest ∧ startsInName rest = false

theorem lacks_of_matchParams? {count : Nat} {variadic : Bool} {args raw : List Text}
    (h : matchParams? count variadic args = some raw) (hargs : ∀ a ∈ args, Lacks w a) :
    ∀ a ∈ raw, Lacks w a := by
  unfold matchParams? at h
  split at h
  · split at h <;> cases h
    exact List.forall_mem_nil _
  · split at h
    · split at h <;> cases h
      refine List.forall_mem_append.mpr ⟨fun a ha => hargs a (List.mem_of_mem_take ha), ?_⟩
      refine List.forall_mem_singleton.mpr ?_
      refine (Text.lacks_join_iff (by decide) ?_).mpr fun a ha => hargs a (List.mem_of_mem_drop ha)
      exact List.forall_mem_cons.mpr ⟨by decide, List.forall_mem_singleton.mpr (by decide)⟩
    · split at h <;> cases h
      exact hargs

/-- Arguments lack the name if the text lacks it that they are read from. -/
theorem lacks_of_readsArgs {m : Macro} {rest after : Text} {args : List Text}
    (hrest : Behind w rest) (h : ReadsArgs m rest args after) :
    (∀ a ∈ args, Lacks w a) ∧ Behind w after := by
  cases h with
  | none => exact ⟨List.forall_mem_nil _, hrest⟩
  | @some params inner after pieces args _ hopen hcollect hmatch =>
    obtain ⟨front, hfront⟩ := openParen?_suffix hopen
    have hinner := ((hfront ▸ hrest.1).of_mark (by decide)).2
    rw [(collects_of_collect? hcollect).text_eq] at hinner
    obtain ⟨hjoin, hafter⟩ := hinner.of_mark (by decide)
    refine ⟨lacks_of_matchParams? hmatch ?_, hafter, ?_⟩
    · have hcomma : ∀ c ∈ [','], isNameChar c = false ∧ c ≠ ')' :=
        List.forall_mem_singleton.mpr (by decide)
      have hpieces := (Text.lacks_join_iff (by decide) hcomma).mp hjoin
      exact List.forall_mem_map.mpr fun p hp => (hpieces p hp).trim
    · exact hinner.apart (u := Text.join [','] pieces ++ [')']) (by simp) (by simp)

/-! ### Replacement texts -/

/-- **Arguments make up no new name with a replacement text.** -/
theorem becomes_segments {params : Option (List String)} {raw expanded : List Text} {body : Text}
    (hbody : Lacks w body) (hmark : '#' ∉ body) (hexpanded : ∀ a ∈ expanded, Lacks w a) :
    Becomes w body (render raw expanded (segments params body)) := by
  induction body using Text.item_induction with
  | nil =>
    rw [segments]
    exact Text.becomes_nil
  | literal r ih =>
    rw [segments_literal, render_consText]
    refine (ih hbody.of_literal fun hmem => hmark ?_).literal hbody
    exact List.mem_cons_of_mem _ ((Quoted.split_snd_suffix r).mem hmem)
  | word w' rest hw ih =>
    have hout := ih (hbody.of_isWord hw) fun hmem => hmark (List.mem_append_right w' hmem)
    rw [segments_word hw]
    cases paramIndex? params w' with
    | none =>
      rw [Option.elim_none, render_consText]
      exact hout.word hbody hw
    | some i =>
      have harg : Lacks w (expanded.getD i []) := by
        rw [List.getD_eq_getElem?_getD]
        cases hi : expanded[i]? with
        | none => exact Text.lacks_nil
        | some a => exact hexpanded a (List.mem_of_getElem? hi)
      exact hout.use harg hw hw.startsInName_rest
  | mark c r hq hc ih =>
    rw [List.mem_cons, not_or] at hmark
    rw [segments_mark hq hc (Ne.symm hmark.1), render_consChar]
    exact (ih (hbody.of_mark (s := []) hc).2 hmark.2).mark hbody hc

/-- No macro but the one of the given name mentions that name: it does not stand in the
replacement texts of the others, nor could it come about in them. -/
def Table.Unmentioned (t : Table) (name : String) : Prop :=
  ∀ n m, t.find? n = some m → n ≠ name → ∃ params body,
    ofDefinition? n params body = some m ∧ '#' ∉ body ∧ Lacks name.toList body

/-- Arguments in place, the replacement text of another macro lacks the name. -/
theorem lacks_render {name : String} (h : t.Unmentioned name) {m : Macro}
    (hfind : t.find? m.name = some m) (hne : m.name ≠ name) (raw : List Text)
    {expanded : List Text} (hexpanded : ∀ a ∈ expanded, Lacks name.toList a) :
    Lacks name.toList (render raw expanded m.body) := by
  obtain ⟨params, body, hdef, hmark, hbody⟩ := h m.name m hfind hne
  unfold ofDefinition? at hdef
  split at hdef
  · have hsegments := congrArg Macro.body (Option.some.inj hdef)
    rw [← hsegments, markPasted_of_notMem (paste_notMem_segments hmark)]
    exact (becomes_segments hbody hmark hexpanded).lacks
  · cases hdef

/-! ### Names at the end of a replacement -/

/-- A text ends in a name, apart from white space, and digits may stand right in front of it. -/
theorem exists_trimEnd_eq (u : Text) :
    ∃ front ds, Text.trimEnd u = front ++ ds ++ trailingName u ∧ endsInName front = false ∧
      ∀ c ∈ ds, isNameChar c = true ∧ isNameStart c = false := by
  let run := ((Text.trimEnd u).reverse.takeWhile isNameChar).reverse
  refine ⟨((Text.trimEnd u).reverse.dropWhile isNameChar).reverse,
    run.takeWhile (!isNameStart ·), ?_, ?_, fun c hc => ⟨?_, ?_⟩⟩
  · rw [List.append_assoc, trailingName, List.takeWhile_append_dropWhile, ← List.reverse_append,
      List.takeWhile_append_dropWhile, List.reverse_reverse]
  · rw [endsInName, List.getLast?_reverse]
    exact startsInName_dropWhile _
  · have hrun : c ∈ run := (List.takeWhile_prefix _).mem hc
    exact List.mem_takeWhile_imp (List.mem_reverse.mp hrun)
  · simpa using List.mem_takeWhile_imp hc

theorem beforeTrailingName_eq {u before : Text} (h : Text.trimEnd u = before ++ trailingName u) :
    beforeTrailingName u = before := by
  rw [beforeTrailingName, h, List.length_append, Nat.add_sub_cancel, List.take_left]

/-- What the name at the end is replaced by makes up no new name with the text in front of it. -/
theorem lacks_beforeTrailingName_append {u tail : Text} (hu : Lacks w u) (htail : Lacks w tail)
    (hname : Text.isName (trailingName u) = true) :
    Lacks w (beforeTrailingName u ++ tail) := by
  obtain ⟨front, ds, htrim, hfront, hds⟩ := exists_trimEnd_eq u
  rw [beforeTrailingName_eq htrim, List.append_assoc]
  have hlacks := hu.trimEnd
  rw [htrim, List.append_assoc] at hlacks
  refine (hlacks.left fun _ => hfront).append (htail.digits_append hds) fun _ => ⟨hfront, ?_⟩
  intro hlast
  -- A name would stand right behind the parenthesis.
  have hapart := hlacks.apart rfl hlast
  have hend : IsWord (trailingName u) [] := isWord_of_isName hname nofun
  have hword : IsWord (ds ++ trailingName u) [] := by
    refine ⟨List.append_ne_nil_of_right_ne_nil _ hend.ne_nil, ?_, nofun⟩
    exact List.forall_mem_append.mpr ⟨fun c hc => (hds c hc).1, hend.chars⟩
  have hstart := hword.startsInName
  rw [List.append_nil, hapart] at hstart
  cases hstart

/-! ### Tasks -/

/-- The task starts without the name: it is no use of the macro, and what it reads lacks the
name. -/
def Quiet (name : String) : Frame t → Prop
  | ⟨_, .scan text⟩ => Lacks name.toList text
  | ⟨_, .invoke m rest⟩ =>
      t.find? m.val.name = some m.val ∧ m.val.name ≠ name ∧ Behind name.toList rest
  | ⟨_, .resume _ output rest⟩ => Lacks name.toList output ∧ Behind name.toList rest

/-- The task ends without the name: it is not in what the task puts out, nor in the text that is
left to read. -/
def Keeps (name : String) : Frame t → Prop
  | ⟨s, .scan text⟩ => ∀ out, t.expandUnder s text = .ok out → Becomes name.toList text out
  | ⟨_, .invoke m rest⟩ => ∀ x, (Task.invoke m rest).answer = .ok (some x) →
      Lacks name.toList x.1 ∧ Behind name.toList x.2
  | ⟨s, .resume origin output rest⟩ =>
      ∀ x, (Task.resume origin output rest : Task t s).answer = .ok x →
        Lacks name.toList x.1 ∧ Behind name.toList x.2

/-- The task ends without the name if it starts without it. -/
def Holds (name : String) (f : Frame t) : Prop := Quiet name f → Keeps name f

section Quiet

variable {name : String} {s : List String}

/-- What is kept, and what becomes of the text behind it. -/
theorem keeps_scan_of_eq {text rest front : Text} (hrest : Keeps name (⟨s, .scan rest⟩ : Frame t))
    (heq : t.expandUnder s text = (t.expandUnder s rest).map (front ++ ·))
    (h : ∀ out, Becomes name.toList rest out → Becomes name.toList text (front ++ out)) :
    Keeps name (⟨s, .scan text⟩ : Frame t) := by
  intro out hout
  rw [heq] at hout
  obtain ⟨out, hout', rfl⟩ := map_eq_ok hout
  exact h out (hrest out hout')

/-- A text that lacks a name does not start with it. -/
theorem name_ne_of_lacks {w rest : Text} {m : Enabled t s} (h : Lacks name.toList (w ++ rest))
    (hw : IsWord w rest) (he : t.enabled? s w = some m) : m.val.name ≠ name := by
  rintro rfl
  obtain ⟨hfind, hname⟩ := enabled?_eq_some_iff.mp he
  rw [(Table.find?_eq_some hfind).2, String.toList_ofList] at h
  exact h.notWordAt 0 ⟨[], rest, rfl, rfl, hname, rfl, hw.startsInName_rest⟩

/-- At a word, a scan keeps it, or it reads on behind a use. -/
theorem quiet_scan_word {w rest : Text} (hw : IsWord w rest)
    (hquiet : Lacks name.toList (w ++ rest)) (h : (scanCode t s (w ++ rest)).All (Holds name)) :
    (scanCode t s (w ++ rest)).All (Quiet name) ∧
      Keeps name (⟨s, .scan (w ++ rest)⟩ : Frame t) := by
  have hrest := hquiet.of_isWord hw
  have hexpand := expandUnder_word t s hw
  have hkept : ∀ out, Becomes name.toList rest out →
      Becomes name.toList (w ++ rest) (w ++ out) := fun out hout => hout.word hquiet hw
  rw [scanCode_word hw] at h ⊢
  cases he : t.enabled? s w with
  | none =>
    simp only [he] at h hexpand
    exact ⟨⟨hrest, trivial⟩, keeps_scan_of_eq (h.1 hrest) hexpand hkept⟩
  | some m =>
    simp only [he] at h hexpand
    have hinvoke : Quiet name (⟨s, .invoke m rest⟩ : Frame t) :=
      ⟨find?_name_of_enabled? he, name_ne_of_lacks hquiet hw he, hrest, hw.startsInName_rest⟩
    obtain ⟨hholds, hlater⟩ := h
    have hkeeps := hholds hinvoke
    cases hanswer : (Task.invoke m rest).answer with
    | error e =>
      simp only [hanswer] at hexpand
      refine ⟨⟨hinvoke, by rw [hanswer]; trivial⟩, fun out hout => ?_⟩
      cases hexpand.symm.trans hout
    | ok x =>
      simp only [hanswer] at hexpand hlater
      rcases x with _ | ⟨out, after⟩
      · refine ⟨⟨hinvoke, by rw [hanswer]; exact ⟨hrest, trivial⟩⟩, ?_⟩
        exact keeps_scan_of_eq (hlater.1 hrest) hexpand hkept
      · obtain ⟨hout, hafter, hstart⟩ := hkeeps _ hanswer
        refine ⟨⟨hinvoke, by rw [hanswer]; exact ⟨hafter, trivial⟩⟩, ?_⟩
        exact keeps_scan_of_eq (hlater.1 hafter) hexpand fun _ hbehind =>
          hbehind.use hout hw hstart

theorem quiet_scan {text : Text} (hquiet : Lacks name.toList text)
    (h : (scanCode t s text).All (Holds name)) :
    (scanCode t s text).All (Quiet name) ∧ Keeps name (⟨s, .scan text⟩ : Frame t) := by
  -- Only what the text starts with matters, and the tasks for the rest are those of the code.
  induction text using Text.item_induction with
  | nil =>
    refine ⟨trivial, fun out hout => ?_⟩
    rw [expandUnder_empty] at hout
    cases hout
    exact Text.becomes_nil
  | literal r =>
    rw [scanCode, if_pos (beq_self_eq_true _)] at h ⊢
    have hrest := hquiet.of_literal
    exact ⟨⟨hrest, trivial⟩, keeps_scan_of_eq (h.1 hrest) (Step.literal r).expandUnder_eq
      fun out hout => hout.literal hquiet⟩
  | word w rest hw => exact quiet_scan_word hw hquiet h
  | mark c r hq hc =>
    rw [scanCode, if_neg (by simpa using hq), if_neg (by simp [hc])] at h ⊢
    have hrest := (hquiet.of_mark (s := []) hc).2
    exact ⟨⟨hrest, trivial⟩, keeps_scan_of_eq (h.1 hrest) (Step.mark r hq hc).expandUnder_eq
      fun out hout => hout.mark hquiet hc⟩

/-- Arguments are read one after the other, up to the first one that fails. -/
theorem quiet_expandAll {α : Type} {args : List Text}
    {next : List String → Except Error (List Text) → Code t α}
    (hargs : ∀ a ∈ args, Lacks name.toList a) (h : (expandAll s args next).All (Holds name)) :
    ((next s (args.mapM (t.expandUnder s))).All (Quiet name) →
        (expandAll s args next).All (Quiet name)) ∧
      (next s (args.mapM (t.expandUnder s))).All (Holds name) ∧
      ∀ expanded, args.mapM (t.expandUnder s) = .ok expanded →
        ∀ a ∈ expanded, Lacks name.toList a := by
  induction args generalizing next with
  | nil =>
    refine ⟨id, h, fun expanded hexpanded => ?_⟩
    cases hexpanded
    exact List.forall_mem_nil _
  | cons a args ih =>
    obtain ⟨ha, hargs⟩ := List.forall_mem_cons.mp hargs
    obtain ⟨hholds, hrest⟩ := h
    have hkeeps := hholds ha
    rw [List.mapM_cons, expandAll, Code.All]
    simp only [Task.answer] at hrest ⊢
    rw [← Table.expandUnder] at hrest ⊢
    cases hx : t.expandUnder s a with
    | error e =>
      rw [hx] at hrest
      exact ⟨fun hnext => ⟨ha, hnext⟩, hrest, by rintro _ ⟨⟩⟩
    | ok x =>
      rw [hx] at hrest
      obtain ⟨hquiet, hnext, hexpanded⟩ := ih hargs hrest
      cases hxs : args.mapM (t.expandUnder s) with
      | error e =>
        rw [hxs] at hquiet hnext
        exact ⟨fun hlater => ⟨ha, hquiet hlater⟩, hnext, by rintro _ ⟨⟩⟩
      | ok xs =>
        rw [hxs] at hquiet hnext
        refine ⟨fun hlater => ⟨ha, hquiet hlater⟩, hnext, ?_⟩
        rintro expanded ⟨⟩
        exact List.forall_mem_cons.mpr ⟨(hkeeps x hx).lacks, hexpanded xs hxs⟩

/-- A replacement text is read, and reading goes on behind the use. -/
theorem quiet_replace {m : Macro} {args expanded : List Text} {after : Text}
    (hbody : Lacks name.toList (render args expanded m.body)) (hafter : Behind name.toList after)
    (h : (replaceCode s m args expanded after : Code t _).All (Holds name)) :
    (replaceCode s m args expanded after : Code t _).All (Quiet name) ∧
      ∀ x, replaceAnswer t s m args expanded after = .ok (some x) →
        Lacks name.toList x.1 ∧ Behind name.toList x.2 := by
  obtain ⟨hscan, hlater⟩ := h
  have hkeeps := hscan hbody
  rw [replaceAnswer_eq, replaceCode, Code.All]
  simp only [Task.answer] at hlater ⊢
  cases hps : scan t (m.name :: s) (render args expanded m.body) with
  | error e =>
    refine ⟨⟨hbody, trivial⟩, fun x hx => ?_⟩
    rw [Table.expandUnder, hps] at hx
    cases hx
  | ok ps =>
    have hout : t.expandUnder (m.name :: s) (render args expanded m.body) = .ok (flatten ps) := by
      rw [Table.expandUnder, hps]
      rfl
    rw [hps] at hlater
    have hresume : Quiet name (⟨s, .resume m.name (flatten ps) after⟩ : Frame t) :=
      ⟨(hkeeps _ hout).lacks, hafter⟩
    refine ⟨⟨hbody, hresume, trivial⟩, fun x hx => ?_⟩
    rw [hout] at hx
    obtain ⟨y, hy, hxy⟩ := map_eq_ok hx
    cases hxy
    exact hlater.1 hresume _ hy

/-- A use reads its arguments, and its replacement text with them. -/
theorem quiet_invoke (ht : t.Unmentioned name) {m : Enabled t s} {rest : Text}
    (hm : t.find? m.val.name = some m.val) (hne : m.val.name ≠ name)
    (hrest : Behind name.toList rest) (h : (invokeCode t s m.val rest).All (Holds name)) :
    (invokeCode t s m.val rest).All (Quiet name) ∧ Keeps name (⟨s, .invoke m rest⟩ : Frame t) := by
  rw [invokeCode] at h ⊢
  simp only [Keeps, Task.answer]
  cases hp : m.val.params with
  | none =>
    rw [hp] at h
    rw [invoke_of_params_none rest hp]
    exact quiet_replace (lacks_render ht hm hne [] (List.forall_mem_nil _)) hrest h
  | some params =>
    rw [hp] at h
    rw [invoke_of_params_some rest hp]
    simp only at h ⊢
    cases hcall : readCall m.val params rest with
    | error e => exact ⟨trivial, by rintro _ ⟨⟩⟩
    | ok call =>
      rcases call with _ | call
      · exact ⟨trivial, by rintro _ ⟨⟩⟩
      · simp only [hcall] at h ⊢
        have hreads := (readCall_eq_some_iff hp).mp ⟨call, hcall, rfl, rfl⟩
        obtain ⟨hargs, hafter⟩ := lacks_of_readsArgs hrest hreads
        obtain ⟨hquiet, hnext, hexpanded⟩ := quiet_expandAll hargs h
        cases hx : call.args.mapM (t.expandUnder s) with
        | error e =>
          rw [hx] at hquiet
          refine ⟨hquiet trivial, fun x hanswer => ?_⟩
          change Except.bind (call.args.mapM (t.expandUnder s)) _ = _ at hanswer
          rw [hx] at hanswer
          cases hanswer
        | ok expanded =>
          rw [hx] at hquiet hnext
          have hbody := lacks_render ht hm hne call.args (hexpanded expanded hx)
          obtain ⟨hreplace, hkeeps⟩ := quiet_replace hbody hafter hnext
          refine ⟨hquiet hreplace, fun x hanswer => hkeeps x ?_⟩
          change Except.bind (call.args.mapM (t.expandUnder s)) _ = _ at hanswer
          rwa [hx] at hanswer

/-- Going on with a replacement takes a use with parameters, which is none of the macro. -/
theorem quiet_resume (hparams : ∀ m, t.find? name = some m → m.params = none) {origin : String}
    {output rest : Text} (houtput : Lacks name.toList output) (hrest : Behind name.toList rest)
    (h : (resumeCode t s origin output rest).All (Holds name)) :
    (resumeCode t s origin output rest).All (Quiet name) ∧
      Keeps name (⟨s, .resume origin output rest⟩ : Frame t) := by
  have hstays : ∀ x, (.ok (output, rest) : Except Error (Text × Text)) = .ok x →
      Lacks name.toList x.1 ∧ Behind name.toList x.2 := by
    rintro x ⟨⟩
    exact ⟨houtput, hrest⟩
  rw [resumeCode] at h ⊢
  rw [Keeps, answer_resume]
  cases he : t.enabled? s (trailingName output) with
  | none => exact ⟨trivial, hstays⟩
  | some m =>
    simp only [he] at h ⊢
    split at h
    · next hm =>
      rw [if_pos hm]
      have hfind := find?_name_of_enabled? he
      have hne : m.val.name ≠ name := by
        rintro rfl
        simp [isFunctionLike, hparams m.val hfind] at hm
      have hinvoke : Quiet name (⟨s, .invoke m rest⟩ : Frame t) := ⟨hfind, hne, hrest⟩
      obtain ⟨hholds, hlater⟩ := h
      have hkeeps := hholds hinvoke
      cases hanswer : (Task.invoke m rest).answer with
      | error e =>
        rw [if_pos hm]
        exact ⟨⟨hinvoke, by rw [hanswer]; trivial⟩, by rintro _ ⟨⟩⟩
      | ok x =>
        simp only [hanswer] at hlater
        rw [if_pos hm]
        rcases x with _ | ⟨tail, after⟩
        · exact ⟨⟨hinvoke, by rw [hanswer]; trivial⟩, hstays⟩
        · obtain ⟨htail, hafter⟩ := hkeeps _ hanswer
          have hname := (enabled?_eq_some_iff.mp he).2
          have hresume : Quiet name
              (⟨s, .resume origin (beforeTrailingName output ++ tail) after⟩ : Frame t) :=
            ⟨lacks_beforeTrailingName_append houtput htail hname, hafter⟩
          refine ⟨⟨hinvoke, by rw [hanswer]; exact ⟨hresume, trivial⟩⟩, ?_⟩
          exact hlater.1 hresume
    · next hm =>
      rw [if_neg hm, if_neg hm]
      exact ⟨trivial, hstays⟩

/-- **Tasks that start without the name start no other tasks than such, and end without it**, if
the macro takes no arguments and no other macro mentions it. -/
theorem keeps_of_quiet (ht : t.Unmentioned name)
    (hparams : ∀ m, t.find? name = some m → m.params = none) {f : Frame t} (hf : Quiet name f) :
    f.2.code.All (Quiet name) ∧ Keeps name f := by
  induction f using (wellFounded_calls t).induction with
  | _ f ih =>
    have hall : f.2.code.All (Holds name) :=
      Code.all_iff.mpr fun g hg hquiet => (ih g hg hquiet).2
    obtain ⟨s, task⟩ := f
    cases task with
    | scan text => exact quiet_scan hf hall
    | invoke m rest =>
      obtain ⟨hm, hne, hrest⟩ := hf
      exact quiet_invoke ht hm hne hrest hall
    | resume origin output rest => exact quiet_resume hparams hf.1 hf.2 hall

theorem not_isUse_of_quiet {f : Frame t} (hf : Quiet name f) : ¬IsUse name f := by
  obtain ⟨s, task⟩ := f
  cases task with
  | scan => exact id
  | invoke m rest => exact hf.2.1
  | resume => exact id

end Quiet

/-! ### Macros that are not met -/

section Unmentioned

variable {m : Macro} {text rest : Text}

/-- **A macro without parameters is not met in a text that lacks its name**, if no other macro
mentions it. -/
theorem not_meets_of_unmentioned (ht : t.Unmentioned m.name) (hfind : t.find? m.name = some m)
    (hp : m.params = none) (htext : Lacks m.name.toList text) : ¬t.Meets text m.name := by
  have hparams : ∀ k, t.find? m.name = some k → k.params = none := by
    intro k hk
    cases hfind.symm.trans hk
    exact hp
  have hquiet : ∀ f : Frame t, Relation.ReflTransGen Calls ⟨[], .scan text⟩ f →
      Quiet m.name f := by
    intro f hreach
    induction hreach with
    | refl => exact htext
    | tail _ hcall ih => exact Code.all_iff.mp (keeps_of_quiet ht hparams ih).1 _ hcall
  rintro ⟨f, hreach, huse⟩
  exact not_isUse_of_quiet (hquiet f hreach) huse

/-- A macro that stands for a word is read as the word is, as `expandOn_eq` has it, if no other
macro mentions it and the word is not its name. -/
theorem expand_of_unmentioned (ht : t.Unmentioned m.name) (hfind : t.find? m.name = some m)
    (hname : Text.isName m.name.toList = true) (hp : m.params = none)
    (hbody : render [] [] m.body = w) (hw : IsWord w rest) (hne : m.name.toList ≠ w)
    (hnumber : ∀ f, t.find? (String.ofList (trailingName w)) = some f →
      f.isFunctionLike = true → Text.isName w = true)
    (hagain : ∀ f tail after, t.enabled? [] w = some f → f.val.isFunctionLike = true →
      Used f rest (tail, after) → trailingName tail = w → openParen? after = none) :
    t.expand (m.name.toList ++ rest) = t.expand (w ++ rest) := by
  have horigin : ∀ k, t.find? m.name = some k → k.isFunctionLike = false := by
    intro k hk
    cases hfind.symm.trans hk
    rw [isFunctionLike, hp]
    rfl
  have hlacks := Text.lacks_of_isWord (hw.of_isPrefix List.nil_prefix) hne
  rw [expand_eq_expandOn hfind hname hp hbody hw.stop
    (not_meets_of_unmentioned ht hfind hp hlacks)]
  exact expandOn_eq hw horigin hnumber hagain

end Unmentioned

/-- The macro with brackets does not mention the other one. -/
theorem unmentioned_bracketTable : bracketTable.Unmentioned "G" := by
  have hmark : ∀ c, isNameChar c = false → Lacks ['G'] [c] := fun c hc =>
    Text.lacks_of_marks (List.forall_mem_singleton.mpr hc)
  have hparam : Lacks ['G'] ['x'] :=
    Text.lacks_of_isWord (isWord_singleton (by decide) nofun) (by decide)
  have hbody : Lacks ['G'] "[x]".toList :=
    (hmark '[' (by decide)).append (hparam.append (hmark ']' (by decide)) (by decide)) (by decide)
  intro n m hfind hne
  obtain ⟨hmem, rfl⟩ := Table.find?_eq_some hfind
  rcases List.mem_cons.mp hmem with rfl | hmem
  · exact ⟨some ["x"], "[x]".toList, by cbv, by decide, hbody⟩
  · obtain rfl := List.mem_singleton.mp hmem
    exact absurd rfl hne

end Macro

end PixelWrap
