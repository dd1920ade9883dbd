import PixelWrap.Proofs.Standalone

/-!
# Groups in a part of a text

A shader takes along stretches of its source.  Whether the directives in a stretch make up whole
groups depends on where it starts and ends: it has to end in the branches in which it starts.
A branch is known by the directive that starts it, so that a stretch that goes from one branch of
a group into another one does not end where it starts.

The lines on which a stretch starts and ends are not taken along as a whole.  There are no
directives on them, so what is left of them does not matter, nor does what is put around it.

## Main definitions

* `Branch.enter?`, `Branch.behind?`: the branches that are open behind an item, and behind items.
* `branchesBehind`: the branches that are open behind lines.

## Main results

* `exists_forest_iff`: items make up a forest if and only if no branch is open behind them.
* `Branch.behind?_eq_self_iff`: **items leave all open branches alone if and only if they make up
  groups of their own.**
* `nested_part_iff`: **a stretch of lines is nested if and only if it starts and ends in the same
  branches.**
* `nested_copied_iff`: so is what a shader takes along, if the body of its function is such a
  stretch.
-/

namespace PixelWrap

open Preprocessed (GroupStep Covers role_eq_partRole)

/-- Where an item starts. -/
def Item.offset : Item → Nat
  | .directive offset _ => offset
  | .region offset _ => offset

/-! ### Open branches -/

/-- A branch of a group that is open. -/
structure Branch where
  /-- The directive that starts it. -/
  start : Nat
  /-- Whether no other branch can follow. -/
  isLast : Bool
  deriving DecidableEq, Repr

namespace Branch

/-- The branches that are open behind an item, the innermost one first, if the item matches those
in front of it. -/
def enter? (bs : List Branch) (i : Item) : Option (List Branch) :=
  match i.role, bs with
  | .plain, bs => some bs
  | .opens, bs => some (⟨i.offset, false⟩ :: bs)
  | .elseIf, ⟨_, false⟩ :: bs => some (⟨i.offset, false⟩ :: bs)
  | .otherwise, ⟨_, false⟩ :: bs => some (⟨i.offset, true⟩ :: bs)
  | .endIf, _ :: bs => some bs
  | _, _ => none

/-- The branches that are open behind items. -/
def behind? (bs : List Branch) : List Item → Option (List Branch)
  | [] => some bs
  | i :: is => (enter? bs i).bind (behind? · is)

variable {bs bs' p : List Branch} {i : Item} {is js : List Item} {b : Branch}

theorem behind?_append (bs : List Branch) (is js : List Item) :
    behind? bs (is ++ js) = (behind? bs is).bind (behind? · js) := by
  induction is generalizing bs with
  | nil => rfl
  | cons i is ih => simp only [List.cons_append, behind?, ih, Option.bind_assoc]

theorem enter?_of_plain (h : i.role = .plain) : enter? bs i = some bs := by
  unfold enter?
  rw [h]

/-- A branch that is open behind an item was open in front of it or starts with it. -/
theorem mem_of_enter? (h : enter? bs i = some bs') (hb : b ∈ bs') :
    b ∈ bs ∨ b.start = i.offset := by
  unfold enter? at h
  split at h <;> cases h
  · exact .inl hb
  · rcases List.mem_cons.mp hb with rfl | hb
    · exact .inr rfl
    · exact .inl hb
  · rcases List.mem_cons.mp hb with rfl | hb
    · exact .inr rfl
    · exact .inl (List.mem_cons_of_mem _ hb)
  · rcases List.mem_cons.mp hb with rfl | hb
    · exact .inr rfl
    · exact .inl (List.mem_cons_of_mem _ hb)
  · exact .inl (List.mem_cons_of_mem _ hb)

theorem mem_of_behind? (h : behind? bs is = some bs') (hb : b ∈ bs') :
    b ∈ bs ∨ ∃ i ∈ is, b.start = i.offset := by
  induction is generalizing bs with
  | nil =>
    cases h
    exact .inl hb
  | cons i is ih =>
    obtain ⟨bs₁, hi, hrest⟩ := Option.bind_eq_some_iff.mp h
    rcases ih hrest with hb | ⟨j, hj, hb⟩
    · exact (mem_of_enter? hi hb).imp_right fun hb => ⟨i, List.mem_cons_self .., hb⟩
    · exact .inr ⟨j, List.mem_cons_of_mem _ hj, hb⟩

/-! ### Outer branches -/

/-- Branches further out do not matter. -/
theorem enter?_append (h : enter? p i = some bs') (bs : List Branch) :
    enter? (p ++ bs) i = some (bs' ++ bs) := by
  unfold enter? at h ⊢
  split at h <;> cases h <;> simp_all

theorem behind?_append_outer (h : behind? p is = some bs') (bs : List Branch) :
    behind? (p ++ bs) is = some (bs' ++ bs) := by
  induction is generalizing p with
  | nil =>
    cases h
    rfl
  | cons i is ih =>
    obtain ⟨p', hi, hrest⟩ := Option.bind_eq_some_iff.mp h
    rw [behind?, enter?_append hi, Option.bind_some, ih hrest]

/-- An item that needs a branch further out ends it. -/
theorem of_enter?_append (h : enter? (p ++ bs) i = some bs') :
    (∃ p', enter? p i = some p' ∧ bs' = p' ++ bs) ∨
      ∃ c rest, bs = c :: rest ∧ ∀ b ∈ bs', b ∈ rest ∨ b.start = i.offset := by
  cases hp : enter? p i with
  | some p' =>
    rw [enter?_append hp] at h
    exact .inl ⟨p', rfl, (Option.some.inj h).symm⟩
  | none =>
    right
    unfold enter? at h hp
    cases p with
    | cons c p =>
      split at h <;> simp_all
    | nil =>
      rw [List.nil_append] at h
      split at h <;> cases h <;> simp_all

/-- Items that leave the branches behind that were in front of them do not end one of these. -/
theorem behind?_of_append (h : behind? (p ++ bs) is = some bs) (hnodup : bs.Nodup)
    (hfresh : ∀ i ∈ is, ∀ b ∈ bs, b.start ≠ i.offset) : behind? p is = some [] := by
  induction is generalizing p with
  | nil =>
    have hp : p = [] := by simpa using Option.some.inj h
    rw [hp]
    rfl
  | cons i is ih =>
    obtain ⟨bs', hi, hrest⟩ := Option.bind_eq_some_iff.mp h
    obtain ⟨hfirst, hlater⟩ := List.forall_mem_cons.mp hfresh
    rcases of_enter?_append hi with ⟨p', hp', rfl⟩ | ⟨c, rest, rfl, hbs'⟩
    · rw [behind?, hp', Option.bind_some]
      exact ih hrest hlater
    · -- The branch that ends here would have to be started again.
      have hc : c ∈ c :: rest := List.mem_cons_self ..
      rcases mem_of_behind? hrest hc with hmem | ⟨j, hj, hstart⟩
      · rcases hbs' c hmem with hmem | hstart
        · exact absurd hmem (List.nodup_cons.mp hnodup).1
        · exact absurd hstart (hfirst c hc)
      · exact absurd hstart (hlater j hj c hc)

/-- **Items leave all open branches alone if and only if they open and close groups of their
own.** -/
theorem behind?_eq_self_iff (hnodup : bs.Nodup)
    (hfresh : ∀ i ∈ is, ∀ b ∈ bs, b.start ≠ i.offset) :
    behind? bs is = some bs ↔ behind? [] is = some [] :=
  ⟨fun h => behind?_of_append (p := []) h hnodup hfresh, fun h => behind?_append_outer h bs⟩

/-! ### Forests -/

theorem enter?_opens (bs : List Branch) (m : Mark .opens) :
    enter? bs m.item = some (⟨m.offset, false⟩ :: bs) := by
  simp only [enter?, Mark.item, Item.role, m.role_eq, Item.offset]

theorem enter?_elseIf (start : Nat) (bs : List Branch) (m : Mark .elseIf) :
    enter? (⟨start, false⟩ :: bs) m.item = some (⟨m.offset, false⟩ :: bs) := by
  simp only [enter?, Mark.item, Item.role, m.role_eq, Item.offset]

theorem enter?_otherwise (start : Nat) (bs : List Branch) (m : Mark .otherwise) :
    enter? (⟨start, false⟩ :: bs) m.item = some (⟨m.offset, true⟩ :: bs) := by
  simp only [enter?, Mark.item, Item.role, m.role_eq, Item.offset]

theorem enter?_endIf (b : Branch) (bs : List Branch) (m : Mark .endIf) :
    enter? (b :: bs) m.item = some bs := by
  simp only [enter?, Mark.item, Item.role, m.role_eq]

mutual

/-- A forest opens and closes groups of its own. -/
theorem behind?_forest (bs : List Branch) (f : Forest) : behind? bs f.items = some bs := by
  match f with
  | .nil => rfl
  | .plain i h rest =>
    rw [Forest.items, behind?, enter?_of_plain h]
    exact behind?_forest bs rest
  | .group head body tail rest =>
    rw [Forest.items, behind?, enter?_opens, Option.bind_some, behind?_append, behind?_forest,
      Option.bind_some, behind?_append, behind?_tail, Option.bind_some, behind?_forest]

theorem behind?_tail (bs : List Branch) (start : Nat) (t : Tail) :
    behind? (⟨start, false⟩ :: bs) t.items = some bs := by
  match t with
  | .endIf m =>
    rw [Tail.items, behind?, enter?_endIf]
    rfl
  | .otherwise m body close =>
    rw [Tail.items, behind?, enter?_otherwise, Option.bind_some, behind?_append, behind?_forest,
      Option.bind_some, behind?, enter?_endIf]
    rfl
  | .elseIf m body tail =>
    rw [Tail.items, behind?, enter?_elseIf, Option.bind_some, behind?_append, behind?_forest,
      Option.bind_some, behind?_tail]

end

/-- A group of which no more is known than whether its last branch is open. -/
def group (b : Branch) : Group := ⟨false, false, false, b.isLast⟩

theorem groupStep_of_enter? (h : enter? bs i = some bs') :
    GroupStep i.role (bs.map group) (bs'.map group) := by
  unfold enter? at h
  split at h <;> cases h
  · next hrole => exact hrole ▸ .plain _
  · next hrole => exact hrole ▸ .opens _ rfl
  · next hrole => exact hrole ▸ .elseIf _ rfl rfl
  · next hrole => exact hrole ▸ .otherwise _ rfl rfl
  · next hrole => exact hrole ▸ .endIf _ _

/-- Items behind which no branch is open can be read from the end on. -/
theorem exists_read?_of_behind? (h : behind? bs is = some []) :
    ∃ r, Frames.read? is {} = some r ∧ Covers (bs.map group) r.behind := by
  induction is generalizing bs with
  | nil =>
    cases h
    exact ⟨{}, rfl, .nil⟩
  | cons i is ih =>
    obtain ⟨bs', hi, hrest⟩ := Option.bind_eq_some_iff.mp h
    obtain ⟨r, hr, hcovers⟩ := ih hrest
    have hstep := groupStep_of_enter? hi
    rw [role_eq_partRole] at hstep
    obtain ⟨r', hadd, hcovers'⟩ := hcovers.exists_add? hstep
    refine ⟨r', ?_, hcovers'⟩
    rw [Frames.read?, hr]
    exact hadd

/-- **Items make up a forest if and only if no branch is open behind them.** -/
theorem exists_forest_iff : (∃ f : Forest, f.items = is) ↔ behind? [] is = some [] := by
  constructor
  · rintro ⟨f, rfl⟩
    exact behind?_forest [] f
  · intro h
    obtain ⟨⟨f, behind⟩, hread, hcovers⟩ := exists_read?_of_behind? h
    cases hcovers
    refine ⟨f, ?_⟩
    simpa [Frames.items, Forest.items] using Frames.items_of_read? hread

end Branch

theorem nested_iff_behind? {t : Text} :
    Nested t ↔ Branch.behind? [] (Item.ofText t) = some [] :=
  Branch.exists_forest_iff

/-! ### Lines -/

section Lines

variable {bs : List Branch} {o : Nat} {l : Text} {ls ms : List Text}

theorem behind?_region {x : Text} {is : List Item} :
    Branch.behind? bs (.region o x :: is) = Branch.behind? bs is := by
  rw [Branch.behind?, Branch.enter?_of_plain rfl, Option.bind_some]

/-- A line without a directive opens and closes no branch. -/
theorem behind?_plain (o : Nat) (ls : List Text) (hl : isDirectiveLine l = false) :
    Branch.behind? bs (Item.ofLines o (l :: ls)) =
      Branch.behind? bs (Item.ofLines (o + Text.size l) ls) := by
  rw [Item.ofLines, if_neg (by simp [hl])]
  dsimp only
  rw [behind?_region]
  cases ls with
  | nil => simp
  | cons m ls =>
    cases hm : isDirectiveLine m with
    | true => simp [hm]
    | false =>
      -- The region takes in the next line as well.
      rw [Item.ofLines.eq_def _ (m :: ls)]
      simp only [hm, Bool.false_eq_true, if_false, behind?_region, List.takeWhile_cons,
        Bool.not_false, if_true, List.length_cons, List.drop_succ_cons, List.flatten_cons,
        Text.size_append, Nat.add_assoc]

/-- **The branches behind more lines are those that the further lines lead to**, if no directive
runs on into them. -/
theorem behind?_lines_append (o : Nat) (ms : List Text) (hls : endsContinued false ls = false) :
    Branch.behind? bs (Item.ofLines o (ls ++ ms)) =
      (Branch.behind? bs (Item.ofLines o ls)).bind fun bs' =>
        Branch.behind? bs' (Item.ofLines (o + Text.size ls.flatten) ms) := by
  induction hn : ls.length using Nat.strongRecOn generalizing o ls bs with
  | ind n ih =>
    subst hn
    cases ls with
    | nil => simp [Item.ofLines, Branch.behind?]
    | cons l ls =>
      cases hl : isDirectiveLine l with
      | false =>
        rw [endsContinued, hl, Bool.or_false, Bool.and_false] at hls
        rw [List.cons_append, behind?_plain o _ hl, behind?_plain o _ hl,
          ih _ (Nat.lt_succ_self _) _ hls rfl, List.flatten_cons, Text.size_append, Nat.add_assoc]
      | true =>
        rw [endsContinued, hl, Bool.or_true, Bool.and_true] at hls
        obtain ⟨hmore, hrest⟩ := continuation_append ms hls
        obtain ⟨rest, hprefix⟩ := continuation_isPrefix l ls
        rw [List.cons_append, Item.ofLines, Item.ofLines, if_pos hl, if_pos hl]
        dsimp only
        -- The directive takes the same lines with it, and the further lines stand behind them.
        rw [hmore]
        generalize continuation l ls = more at hprefix hrest
        subst hprefix
        rw [List.drop_left] at hrest
        simp only [List.append_assoc, List.drop_left, Branch.behind?, Option.bind_assoc,
          ih rest.length (by simp) _ hrest rfl, List.flatten_cons, List.flatten_append,
          Text.size_append, Nat.add_assoc]

/-- Lines without directives open and close no branch. -/
theorem behind?_of_plain (o : Nat) (ms : List Text) (hls : ∀ l ∈ ls, isDirectiveLine l = false) :
    Branch.behind? bs (Item.ofLines o (ls ++ ms)) =
      Branch.behind? bs (Item.ofLines (o + Text.size ls.flatten) ms) := by
  induction ls generalizing o with
  | nil => rfl
  | cons l ls ih =>
    obtain ⟨hl, hls⟩ := List.forall_mem_cons.mp hls
    rw [List.cons_append, behind?_plain o _ hl, ih _ hls, List.flatten_cons, Text.size_append,
      Nat.add_assoc]

/-- Groups are whole wherever the lines stand. -/
theorem behind?_nil_iff (o o' : Nat) (ls : List Text) :
    Branch.behind? [] (Item.ofLines o ls) = some [] ↔
      Branch.behind? [] (Item.ofLines o' ls) = some [] := by
  have himp : ∀ o o', Branch.behind? [] (Item.ofLines o ls) = some [] →
      Branch.behind? [] (Item.ofLines o' ls) = some [] := by
    intro o o' h
    obtain ⟨f, hf⟩ := Branch.exists_forest_iff.mpr h
    exact Branch.exists_forest_iff.mp
      (f.exists_of_content (hf ▸ Item.map_content_ofLines o o' ls))
  exact ⟨himp o o', himp o' o⟩

/-- The items of lines start on these lines. -/
theorem le_offset_of_mem_ofLines {i : Item} (h : i ∈ Item.ofLines o ls) : o ≤ i.offset := by
  fun_induction Item.ofLines o ls with
  | case1 => cases h
  | case2 o l ls _ more ih =>
    rcases List.mem_cons.mp h with rfl | h
    · exact Nat.le_add_right ..
    · exact (Nat.le_add_right ..).trans (ih h)
  | case3 o l ls _ more ih =>
    rcases List.mem_cons.mp h with rfl | h
    · exact le_rfl
    · exact (Nat.le_add_right ..).trans (ih h)

/-- A directive starts on its first line. -/
theorem size_takeWhile_isSpace_lt (hl : isDirectiveLine l = true) :
    Text.size (l.takeWhile isSpace) < Text.size l := by
  obtain ⟨r, hr⟩ := Item.exists_of_isDirectiveLine hl
  have hsize := congrArg Text.size hr
  have hmark : 0 < Text.size ['#'] := by decide
  rw [Text.size_append, Text.size_append] at hsize
  omega

end Lines

/-! ### Branches and where they start -/

/-- The branches start in front of an offset, and each of them at a place of its own. -/
structure Branch.Before (o : Nat) (bs : List Branch) : Prop where
  nodup : bs.Nodup
  lt : ∀ b ∈ bs, b.start < o

namespace Branch.Before

variable {bs bs' : List Branch} {o o' : Nat} {i : Item}

theorem nil (o : Nat) : Before o [] := ⟨List.nodup_nil, nofun⟩

theorem mono (h : Before o bs) (ho : o ≤ o') : Before o' bs :=
  ⟨h.nodup, fun b hb => (h.lt b hb).trans_le ho⟩

theorem tail {b : Branch} (h : Before o (b :: bs)) : Before o bs :=
  ⟨(List.nodup_cons.mp h.nodup).2, fun c hc => h.lt c (List.mem_cons_of_mem _ hc)⟩

theorem cons (h : Before o bs) (isLast : Bool) (hlow : o ≤ i.offset) (hhigh : i.offset < o') :
    Before o' (⟨i.offset, isLast⟩ :: bs) := by
  refine ⟨List.nodup_cons.mpr ⟨fun hmem => ?_, h.nodup⟩, ?_⟩
  · exact absurd (h.lt _ hmem) (Nat.not_lt.mpr hlow)
  · intro b hb
    rcases List.mem_cons.mp hb with rfl | hb
    · exact hhigh
    · exact (h.lt b hb).trans_le (hlow.trans hhigh.le)

theorem enter? (h : Before o bs) (hlow : o ≤ i.offset) (hhigh : i.offset < o')
    (hi : Branch.enter? bs i = some bs') : Before o' bs' := by
  have ho : o ≤ o' := hlow.trans hhigh.le
  unfold Branch.enter? at hi
  split at hi <;> cases hi
  · exact h.mono ho
  · exact h.cons false hlow hhigh
  · exact h.tail.cons false hlow hhigh
  · exact h.tail.cons true hlow hhigh
  · exact h.tail.mono ho

/-- The branches that are open behind lines start in front of the end of these. -/
theorem behind? {ls : List Text} (h : Before o bs)
    (hls : Branch.behind? bs (Item.ofLines o ls) = some bs') :
    Before (o + Text.size ls.flatten) bs' := by
  induction hn : ls.length using Nat.strongRecOn generalizing o ls bs with
  | ind n ih =>
    subst hn
    cases ls with
    | nil =>
      rw [Item.ofLines] at hls
      cases hls
      exact h
    | cons l ls =>
      cases hl : isDirectiveLine l with
      | false =>
        rw [behind?_plain o _ hl] at hls
        have hrest := ih _ (Nat.lt_succ_self _) (h.mono (Nat.le_add_right ..)) hls rfl
        rwa [List.flatten_cons, Text.size_append, ← Nat.add_assoc]
      | true =>
        obtain ⟨rest, hprefix⟩ := continuation_isPrefix l ls
        rw [Item.ofLines, if_pos hl] at hls
        dsimp only at hls
        generalize continuation l ls = more at hprefix hls
        subst hprefix
        rw [List.drop_left] at hls
        obtain ⟨bs₁, hi, hrest⟩ := Option.bind_eq_some_iff.mp hls
        have hhigh : o + Text.size (l.takeWhile isSpace) < o + Text.size (l :: more).flatten := by
          have hlt := size_takeWhile_isSpace_lt hl
          rw [List.flatten_cons, Text.size_append]
          omega
        have h₁ := h.enter? (Nat.le_add_right ..) hhigh hi
        have hrest := ih rest.length (by simp) h₁ hrest rfl
        rwa [← List.cons_append, List.flatten_append, Text.size_append, ← Nat.add_assoc]

end Branch.Before

/-! ### Stretches of lines -/

/-- The branches that are open behind lines at the front of a text. -/
def branchesBehind (ls : List Text) : Option (List Branch) :=
  Branch.behind? [] (Item.ofLines 0 ls)

theorem branchesBehind_append {front : List Text} (ls : List Text)
    (hfront : endsContinued false front = false) :
    branchesBehind (front ++ ls) = (branchesBehind front).bind fun bs =>
      Branch.behind? bs (Item.ofLines (Text.size front.flatten) ls) := by
  rw [branchesBehind, behind?_lines_append 0 ls hfront, Nat.zero_add]
  rfl

/-- Lines make up groups of their own if and only if they leave the branches alone that are open
in front of them. -/
theorem branchesBehind_append_eq_iff {front mid : List Text} {bs : List Branch}
    (hfront : endsContinued false front = false) (hbs : branchesBehind front = some bs) :
    branchesBehind (front ++ mid) = some bs ↔
      Branch.behind? [] (Item.ofLines (Text.size front.flatten) mid) = some [] := by
  have hbefore : Branch.Before (Text.size front.flatten) bs := by
    have := (Branch.Before.nil 0).behind? hbs
    rwa [Nat.zero_add] at this
  rw [branchesBehind_append mid hfront, hbs, Option.bind_some]
  refine Branch.behind?_eq_self_iff hbefore.nodup fun i hi b hb => ?_
  exact ((hbefore.lt b hb).trans_le (le_offset_of_mem_ofLines hi)).ne

/-- Lines are nested among others without directives if and only if they make up groups of their
own. -/
theorem nested_iff_of_plain {s : Text} {pre mid post : List Text}
    (hs : Text.lines s = pre ++ (mid ++ post)) (hpre : ∀ l ∈ pre, isDirectiveLine l = false)
    (hpost : ∀ l ∈ post, isDirectiveLine l = false) (hmid : endsContinued false mid = false)
    (o : Nat) :
    Nested s ↔ Branch.behind? [] (Item.ofLines o mid) = some [] := by
  have hnil : ∀ bs o, Branch.behind? bs (Item.ofLines o post) = some bs := by
    intro bs o
    have hplain : Branch.behind? bs (Item.ofLines o (post ++ [])) = _ := behind?_of_plain o [] hpost
    rwa [List.append_nil, Item.ofLines] at hplain
  rw [nested_iff_behind?, Item.ofText, hs, behind?_of_plain 0 _ hpre,
    behind?_lines_append _ _ hmid]
  simp only [hnil, Option.bind_fun_some]
  exact behind?_nil_iff ..

/-- **A stretch of the lines of a nested text is nested if and only if it starts and ends in the
same branches**, whatever lines without directives are put around it. -/
theorem nested_part_iff {t s : Text} {front mid back pre post : List Text} (ht : Nested t)
    (hlines : Text.lines t = front ++ (mid ++ back)) (hs : Text.lines s = pre ++ (mid ++ post))
    (hfront : endsContinued false front = false) (hmid : endsContinued false mid = false)
    (hpre : ∀ l ∈ pre, isDirectiveLine l = false)
    (hpost : ∀ l ∈ post, isDirectiveLine l = false) :
    Nested s ↔ branchesBehind (front ++ mid) = branchesBehind front := by
  rw [nested_iff_behind?, Item.ofText, hlines] at ht
  change branchesBehind _ = _ at ht
  rw [branchesBehind_append _ hfront] at ht
  obtain ⟨bs, hbs, -⟩ := Option.bind_eq_some_iff.mp ht
  rw [hbs, branchesBehind_append_eq_iff hfront hbs]
  exact nested_iff_of_plain hs hpre hpost hmid _

/-- A stretch from one branch of a group into the next one does not end where it starts. -/
example : branchesBehind ["#if A\n".toList] = some [⟨0, false⟩] ∧
    branchesBehind ["#if A\n".toList, "#else\n".toList] = some [⟨6, true⟩] := by
  constructor <;> cbv

/-! ### Shaders -/

/-- What stands in front of the body of the function in the copied part of a shader. -/
def Shader.heading (o : Options) (f : Function) : Text :=
  '\n' :: (Shader.renderSignature o o.entryPoint f.signature ++ ['\n'])

theorem Shader.copied_eq_heading_append (o : Options) (f : Function) :
    copied o f = heading o f ++ (f.body ++ ['\n']) := by
  simp [copied, heading]

/-- **What a shader takes along is nested if and only if the body of the function starts and ends
in the same branches of its source.**  The body starts with the rest `first` of a line and ends
with the front `last` of one, and there are no directives on these lines. -/
theorem nested_copied_iff {t before first mid last after : Text} {o : Options} {f : Function}
    (ht : Nested (Comment.blank t)) (hbody : f.body = first ++ (mid ++ last))
    (hsource : t = before ++ f.body ++ after) (hbefore : Complete (before ++ first))
    (hmid : Complete mid) (hhead : Complete (Shader.heading o f ++ first))
    (hfirst : ∀ l ∈ codeLines (Shader.heading o f ++ first), isDirectiveLine l = false)
    (hlast : ∀ l ∈ codeLines (last ++ ['\n']), isDirectiveLine l = false) :
    Nested (Comment.blank (Shader.copied o f)) ↔
      branchesBehind (codeLines (before ++ first ++ mid)) =
        branchesBehind (codeLines (before ++ first)) := by
  have hlines : codeLines t =
      codeLines (before ++ first) ++ (codeLines mid ++ codeLines (last ++ after)) := by
    rw [← hmid.codeLines_append, ← hbefore.codeLines_append, hsource, hbody]
    simp only [List.append_assoc]
  have hcopied : codeLines (Shader.copied o f) =
      codeLines (Shader.heading o f ++ first) ++ (codeLines mid ++ codeLines (last ++ ['\n'])) := by
    rw [← hmid.codeLines_append, ← hhead.codeLines_append, Shader.copied_eq_heading_append, hbody]
    simp only [List.append_assoc]
  rw [hbefore.codeLines_append]
  exact nested_part_iff ht hlines hcopied hbefore.directive hmid.directive hfirst hlast

end PixelWrap
