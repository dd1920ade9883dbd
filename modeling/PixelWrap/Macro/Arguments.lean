import PixelWrap.Macro.Table

/-!
# Arguments of a macro

Arguments stand in parentheses after the name, with commas between them.  Commas
and parentheses inside nested parentheses or string literals do not count.

Replacing macros inside an argument has to end, and for that an argument must be
smaller than the text it was read from.  Its length will not do, because the
arguments that a variadic parameter takes are joined by a comma *and a space*.  The
number of characters other than the space does.

## Main definitions

* `Macro.collect?`: cuts the text after an opening parenthesis into arguments.
* `Macro.matchParams?`: hands the arguments to the parameters.
* `Macro.weight`: the number of characters other than the space.
* `Macro.Call`: the arguments of one use of a macro, and the text after it.
* `Macro.readCall`: reads the arguments of a use.

## Main results

* `Macro.weight_collect?`: arguments, commas, parenthesis and rest weigh as much
  as the text they come from.
* `Macro.weight_matchParams?_lt`: each argument weighs less than that text.
-/

namespace PixelWrap.Macro

/-! ### Weights -/

/-- The number of characters other than the space. -/
def weight (t : Text) : Nat := t.countP (· != ' ')

@[simp] theorem weight_nil : weight [] = 0 := rfl

@[simp] theorem weight_append (s t : Text) : weight (s ++ t) = weight s + weight t :=
  List.countP_append

theorem weight_cons (c : Char) (t : Text) :
    weight (c :: t) = weight t + if c != ' ' then 1 else 0 :=
  List.countP_cons

theorem weight_le_of_suffix {s t : Text} (h : s <:+ t) : weight s ≤ weight t :=
  h.sublist.countP_le

theorem trimEnd_sublist (t : Text) : (Text.trimEnd t).Sublist t := by
  fun_induction Text.trimEnd t with
  | case1 => exact .slnil
  | case2 => exact List.nil_sublist _
  | case3 => simp
  | case4 c r h ih => exact ih.cons_cons c

theorem weight_trim_le (t : Text) : weight (Text.trim t) ≤ weight t :=
  ((trimEnd_sublist _).trans (List.dropWhile_suffix _).sublist).countP_le

/-- The weight of several texts together. -/
def totalWeight : List Text → Nat
  | [] => 0
  | t :: ts => weight t + totalWeight ts

theorem totalWeight_append (ss ts : List Text) :
    totalWeight (ss ++ ts) = totalWeight ss + totalWeight ts := by
  induction ss with
  | nil => simp [totalWeight]
  | cons s ss ih => simp [totalWeight, ih, Nat.add_assoc]

theorem totalWeight_map_trim_le (ts : List Text) :
    totalWeight (ts.map Text.trim) ≤ totalWeight ts := by
  induction ts with
  | nil => simp [totalWeight]
  | cons t ts ih =>
    have := weight_trim_le t
    simp only [totalWeight, List.map_cons]
    omega

theorem weight_le_totalWeight {t : Text} {ts : List Text} (h : t ∈ ts) :
    weight t ≤ totalWeight ts := by
  induction ts with
  | nil => cases h
  | cons s ss ih =>
    simp only [totalWeight]
    cases h with
    | head => omega
    | tail _ h => have := ih h; omega

/-- Joining with a comma and a space adds one for each comma. -/
theorem weight_join_le (ts : List Text) :
    weight (Text.join [',', ' '] ts) ≤ totalWeight ts + (ts.length - 1) := by
  fun_induction Text.join [',', ' '] ts with
  | case1 => simp
  | case2 t => simp [totalWeight]
  | case3 t ts h ih =>
    have hlen : 0 < ts.length := List.length_pos_iff.mpr fun hnil => h hnil
    have hsep : weight [',', ' '] = 1 := rfl
    simp only [weight_append, hsep, totalWeight, List.length_cons]
    omega

/-! ### Collecting arguments -/

/-- Puts a text in front of the first argument. -/
def prependFirst (s : Text) : List Text × Text → List Text × Text
  | (a :: as, rest) => ((s ++ a) :: as, rest)
  | ([], rest) => ([s], rest)

/-- Cuts the text after an opening parenthesis into the arguments up to the
parenthesis that closes it and the text after that; `none` if nothing closes it.
`depth` is the number of parentheses open inside the current argument. -/
def collect? (depth : Nat) : Text → Option (List Text × Text)
  | [] => none
  | c :: r =>
    if c == '"' then
      (collect? depth (Quoted.split r).2).map (prependFirst (c :: (Quoted.split r).1))
    else if c == '(' then (collect? (depth + 1) r).map (prependFirst [c])
    else if c == ')' then
      match depth with
      | 0 => some ([[]], r)
      | d + 1 => (collect? d r).map (prependFirst [c])
    else if c == ',' && depth == 0 then
      (collect? 0 r).map fun (as, rest) => ([] :: as, rest)
    else (collect? depth r).map (prependFirst [c])
termination_by t => t.length
decreasing_by
  all_goals simp only [List.length_cons]
  · have := (Quoted.split_snd_suffix r).length_le
    omega
  all_goals omega

theorem weight_prependFirst {s : Text} {p : List Text × Text} (h : p.1 ≠ []) :
    totalWeight (prependFirst s p).1 = weight s + totalWeight p.1 ∧
      (prependFirst s p).1.length = p.1.length ∧ (prependFirst s p).2 = p.2 := by
  obtain ⟨_ | ⟨a, as⟩, rest⟩ := p
  · exact absurd rfl h
  · simp [prependFirst, totalWeight, Nat.add_assoc]

/-- **The arguments, the commas between them, the closing parenthesis and the text
after it weigh as much as the text they were cut from.** -/
theorem weight_collect? {depth : Nat} {t : Text} {p : List Text × Text}
    (h : collect? depth t = some p) :
    p.1 ≠ [] ∧ totalWeight p.1 + p.1.length + weight p.2 = weight t := by
  -- Every recursive case but the comma puts a text in front of the first argument.
  have step : ∀ {s r : Text} {q : List Text × Text},
      q.1 ≠ [] ∧ totalWeight q.1 + q.1.length + weight q.2 = weight r →
      (prependFirst s q).1 ≠ [] ∧
        totalWeight (prependFirst s q).1 + (prependFirst s q).1.length +
          weight (prependFirst s q).2 = weight s + weight r := by
    intro s r q ⟨hne, hw⟩
    obtain ⟨h₁, h₂, h₃⟩ := weight_prependFirst (s := s) hne
    refine ⟨fun hnil => hne (List.eq_nil_of_length_eq_zero ?_), ?_⟩
    · rw [← h₂, hnil]; rfl
    · rw [h₁, h₂, h₃]; omega
  fun_induction collect? depth t generalizing p with
  | case1 => cases h
  | case2 depth c r hc ih =>
    obtain ⟨q, hq, rfl⟩ := Option.map_eq_some_iff.mp h
    have := step (s := c :: (Quoted.split r).1) (ih hq)
    rwa [← weight_append, List.cons_append, Quoted.split_append] at this
  | case3 depth c r _ _ ih =>
    obtain ⟨q, hq, rfl⟩ := Option.map_eq_some_iff.mp h
    have := step (s := [c]) (ih hq)
    rwa [← weight_append] at this
  | case4 c r _ _ hc =>
    cases h
    simp only [beq_iff_eq] at hc
    subst hc
    simp [weight_cons, totalWeight, Nat.add_comm]
  | case5 c r _ _ _ d ih =>
    obtain ⟨q, hq, rfl⟩ := Option.map_eq_some_iff.mp h
    have := step (s := [c]) (ih hq)
    rwa [← weight_append] at this
  | case6 depth c r _ _ _ hc ih =>
    obtain ⟨q, hq, rfl⟩ := Option.map_eq_some_iff.mp h
    obtain ⟨hne, hw⟩ := ih hq
    simp only [Bool.and_eq_true, beq_iff_eq] at hc
    obtain ⟨rfl, -⟩ := hc
    simp [weight_cons, totalWeight] at hw ⊢
    omega
  | case7 depth c r _ _ _ _ ih =>
    obtain ⟨q, hq, rfl⟩ := Option.map_eq_some_iff.mp h
    have := step (s := [c]) (ih hq)
    rwa [← weight_append] at this

/-- The text after the closing parenthesis is a proper suffix. -/
theorem collect?_suffix {depth : Nat} {t : Text} {p : List Text × Text}
    (h : collect? depth t = some p) : p.2 <:+ t ∧ p.2.length < t.length := by
  have snd : ∀ (s : Text) (q : List Text × Text), (prependFirst s q).2 = q.2 := by
    rintro s ⟨_ | ⟨a, as⟩, rest⟩ <;> rfl
  have up : ∀ {s r : Text} (c : Char), s <:+ r ∧ s.length < r.length →
      s <:+ c :: r ∧ s.length < (c :: r).length := fun c ⟨h₁, h₂⟩ =>
    ⟨h₁.trans (List.suffix_cons c _), Nat.lt_succ_of_lt h₂⟩
  fun_induction collect? depth t generalizing p with
  | case1 => cases h
  | case2 depth c r _ ih =>
    obtain ⟨q, hq, rfl⟩ := Option.map_eq_some_iff.mp h
    have hs := Quoted.split_snd_suffix r
    rw [snd]
    exact up c ⟨(ih hq).1.trans hs, Nat.lt_of_lt_of_le (ih hq).2 hs.length_le⟩
  | case3 depth c r _ _ ih =>
    obtain ⟨q, hq, rfl⟩ := Option.map_eq_some_iff.mp h
    rw [snd]; exact up c (ih hq)
  | case4 c r =>
    cases h
    exact ⟨List.suffix_cons c r, Nat.lt_succ_self _⟩
  | case5 c r _ _ _ d ih =>
    obtain ⟨q, hq, rfl⟩ := Option.map_eq_some_iff.mp h
    rw [snd]; exact up c (ih hq)
  | case6 depth c r _ _ _ _ ih =>
    obtain ⟨⟨as, rest⟩, hq, rfl⟩ := Option.map_eq_some_iff.mp h
    exact up c (ih (p := (as, rest)) hq)
  | case7 depth c r _ _ _ _ ih =>
    obtain ⟨q, hq, rfl⟩ := Option.map_eq_some_iff.mp h
    rw [snd]; exact up c (ih hq)

/-! ### Arguments and parameters -/

/-- Hands arguments to parameters, one to each; `none` if their numbers do not
match.  Without parameters there must be one empty argument.  The last parameter of
a variadic macro takes all remaining arguments, joined by commas. -/
def matchParams? (count : Nat) (variadic : Bool) (args : List Text) : Option (List Text) :=
  if count = 0 then
    if args == [[]] then some [] else none
  else if variadic then
    if args.length < count - 1 then none
    else some (args.take (count - 1) ++ [Text.join [',', ' '] (args.drop (count - 1))])
  else if args.length = count then some args
  else none

/-- **Each argument that a parameter gets weighs less than all arguments with a
separator each.** -/
theorem weight_matchParams?_lt {count : Nat} {variadic : Bool} {args raw : List Text}
    (hne : args ≠ []) (h : matchParams? count variadic args = some raw) {a : Text}
    (ha : a ∈ raw) : weight a < totalWeight args + args.length := by
  have hlen : 0 < args.length := List.length_pos_iff.mpr hne
  have hmem : ∀ {b}, b ∈ args → weight b < totalWeight args + args.length := fun hb => by
    have := weight_le_totalWeight hb
    omega
  unfold matchParams? at h
  split at h
  · split at h
    · cases h; cases ha
    · cases h
  · split at h
    · split at h
      · cases h
      · cases h
        rcases List.mem_append.mp ha with hb | hb
        · exact hmem (List.mem_of_mem_take hb)
        · cases List.mem_singleton.mp hb
          have h₁ := weight_join_le (args.drop (count - 1))
          have h₂ := totalWeight_append (args.take (count - 1)) (args.drop (count - 1))
          rw [List.take_append_drop] at h₂
          have h₃ := List.length_drop (i := count - 1) (l := args)
          omega
    · split at h
      · cases h; exact hmem ha
      · cases h

/-! ### Reading the arguments of a use -/

/-- Why a use of a macro cannot be replaced. -/
inductive Error where
  /-- Nothing closes the parenthesis that opens the arguments. -/
  | argumentsNeverEnd (name : String)
  /-- The numbers of arguments and parameters do not match. -/
  | argumentCount (name : String)
  deriving DecidableEq, Repr

/-- The arguments of one use of a macro, read from the text after its name. -/
structure Call (rest : Text) where
  /-- The arguments as written, one for each parameter. -/
  args : List Text
  /-- The text after the closing parenthesis. -/
  after : Text
  /-- Each argument weighs less than the text it was read from. -/
  light : ∀ a ∈ args, weight a < weight rest
  /-- The text after the arguments ends the text that was read. -/
  isSuffix : after <:+ rest
  /-- The arguments take up some text. -/
  shorter : after.length < rest.length

/-- The text after the opening parenthesis that the text starts with, white space
aside. -/
def openParen? (t : Text) : Option Text :=
  match Text.trimStart t with
  | '(' :: inner => some inner
  | _ => none

theorem openParen?_suffix {t inner : Text} (h : openParen? t = some inner) :
    '(' :: inner <:+ t := by
  unfold openParen? at h
  split at h
  · next i hi =>
    cases h
    rw [← hi]
    exact List.dropWhile_suffix isSpace
  · cases h

/-- Reads the arguments of a use of a macro with the given parameters from the text
after its name.  Without a parenthesis this is no use, and nothing is read. -/
def readCall (m : Macro) (params : List String) (rest : Text) :
    Except Error (Option (Call rest)) :=
  match ho : openParen? rest with
  | none => .ok none
  | some inner =>
    match hc : collect? 0 inner with
    | none => .error (.argumentsNeverEnd m.name)
    | some (pieces, after) =>
      match hm : matchParams? params.length m.variadic (pieces.map Text.trim) with
      | none => .error (.argumentCount m.name)
      | some args =>
        have hin := openParen?_suffix ho
        have hs := collect?_suffix hc
        .ok (some {
          args
          after
          light := fun a ha => by
            obtain ⟨hne, hw⟩ := weight_collect? hc
            have h₁ := weight_matchParams?_lt (by simpa using hne) hm ha
            have h₂ := totalWeight_map_trim_le pieces
            have h₃ := weight_le_of_suffix hin
            rw [weight_cons] at h₃
            rw [List.length_map] at h₁
            simp only at hw
            omega
          isSuffix := (hs.1.trans (List.suffix_cons _ _)).trans hin
          shorter := by
            have := hin.length_le
            have := hs.2
            simp only [List.length_cons] at *
            omega })

end PixelWrap.Macro
