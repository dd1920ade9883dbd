import PixelWrap.Proofs.Readers
import PixelWrap.Proofs.Spelling

/-!
# Tokens in front of a text that is cut off

To see where a token ends, some of the text behind it is looked at.  If the end of that
text is cut off, there is less to look at, and the token stays what it was.  There is one
exception: a zero in front of an `x` and digits that are too many for a number is read on
its own, and with fewer of these digits it would be part of a number.  So the text may be
cut off anywhere but inside of a word that stands right behind the token.

## Main definitions

* `Token.CutOff`: the end of a text is cut off, but not inside of its first word.

## Main results

* `Token.first?_cutOff`: **a token is read in the same way if the end of the text is cut
  off.**
-/

namespace PixelWrap.Token

/-- The text `v'` is what is left of `v` if its end is cut off.  The word that `v` starts
with is kept as a whole or not at all. -/
structure CutOff (v' v : Text) : Prop where
  isPrefix : v' <+: v
  word : v' = [] ∨ (Text.splitName v').1 = (Text.splitName v).1

theorem cutOff_nil (v : Text) : CutOff [] v := ⟨List.nil_prefix, .inl rfl⟩

/-! ### Runs of characters -/

section Runs

variable {p : Char → Bool} {l v v' : Text}

/-- A run of characters that ends within `l` ends there whatever is left behind it. -/
theorem exists_of_length_takeWhile_le (hlen : ((l ++ v).takeWhile p).length ≤ l.length)
    (hv : v' <+: v) :
    ∃ r, l = (l ++ v).takeWhile p ++ r ∧ (l ++ v).dropWhile p = r ++ v ∧
      (l ++ v').takeWhile p = (l ++ v).takeWhile p ∧ (l ++ v').dropWhile p = r ++ v' := by
  induction l with
  | nil =>
    have hnil : v.takeWhile p = [] := List.eq_nil_of_length_eq_zero (Nat.le_zero.mp hlen)
    obtain ⟨w, rfl⟩ := hv
    cases v' with
    | nil =>
      have hdrop := List.takeWhile_append_dropWhile (p := p) (l := w)
      rw [List.nil_append] at hnil
      rw [hnil, List.nil_append] at hdrop
      exact ⟨[], by simp [hnil], by simpa using hdrop, by simp [hnil], rfl⟩
    | cons c v' =>
      have hc : p c = false := by
        rw [Bool.eq_false_iff]
        intro hc
        simp [hc] at hnil
      exact ⟨[], by simp [hc], by simp [hc], by simp [hc], by simp [hc]⟩
  | cons c l ih =>
    by_cases hc : p c = true
    · simp only [List.cons_append, List.takeWhile_cons, List.dropWhile_cons, hc, if_true,
        List.length_cons, Nat.add_le_add_iff_right] at hlen ⊢
      obtain ⟨r, hl, hdrop, htake', hdrop'⟩ := ih hlen
      exact ⟨r, congrArg (c :: ·) hl, hdrop, congrArg (c :: ·) htake', hdrop'⟩
    · exact ⟨c :: l, by simp [hc], by simp [hc], by simp [hc], by simp [hc]⟩

theorem mem_head?_of_isPrefix {c : Char} (hv : v' <+: v) (hc : c ∈ v'.head?) : c ∈ v.head? := by
  obtain ⟨w, rfl⟩ := hv
  obtain ⟨r, rfl⟩ := List.head?_eq_some_iff.mp hc
  rfl

theorem of_mem_head?_dropWhile {c : Char} (hc : c ∈ (v.dropWhile p).head?) : p c = false := by
  have hhead := List.head?_dropWhile_not p v
  rw [Option.mem_def.mp hc] at hhead
  exact hhead

/-- Where a run of characters stops within a text, it stops there whatever follows. -/
theorem span_append (h : v.dropWhile p ≠ []) (w : Text) :
    (v ++ w).takeWhile p = v.takeWhile p ∧ (v ++ w).dropWhile p = v.dropWhile p ++ w := by
  have hstop : ∀ c ∈ (v.dropWhile p ++ w).head?, p c = false := by
    obtain ⟨c, r, hc⟩ := List.exists_cons_of_ne_nil h
    rw [hc]
    rintro d ⟨⟩
    exact of_mem_head?_dropWhile (v := v) (by rw [hc]; rfl)
  have hall : ∀ c ∈ v.takeWhile p, p c = true := fun c => List.mem_takeWhile_imp
  have hsplit : v ++ w = v.takeWhile p ++ (v.dropWhile p ++ w) := by
    rw [← List.append_assoc, List.takeWhile_append_dropWhile]
  rw [hsplit]
  exact ⟨Condition.takeWhile_append_of_head hall hstop,
    Condition.dropWhile_append_of_head hall hstop⟩

theorem takeWhile_takeWhile_of_imp {q : Char → Bool} (hpq : ∀ c, p c = true → q c = true)
    (t : Text) : (t.takeWhile q).takeWhile p = t.takeWhile p := by
  rw [List.takeWhile_takeWhile]
  congr 1
  funext c
  by_cases hc : p c = true
  · simp [hc, hpq c hc]
  · simp [hc]

theorem takeWhile_of_length_le (hlen : ((l ++ v).takeWhile p).length ≤ l.length)
    (hv : v' <+: v) : (l ++ v').takeWhile p = (l ++ v).takeWhile p := by
  obtain ⟨r, -, -, htake, -⟩ := exists_of_length_takeWhile_le hlen hv
  exact htake

end Runs

/-! ### Numbers with a fraction or an exponent -/

/-- The characters `s` are the letter, the sign and the digits of the exponent `e`. -/
inductive SpellsExponent : Int → Text → Prop
  | mk (c : Char) (sign digits : Text) (letter : (c == 'e' || c == 'E') = true)
      (sign_mem : sign ∈ [[], ['+'], ['-']]) (ne_nil : digits ≠ [])
      (isDigit : ∀ x ∈ digits, x.isDigit = true) :
      SpellsExponent (if sign == ['-'] then -(ofDigits 10 digits : Int) else ofDigits 10 digits)
        (c :: (sign ++ digits))

section Floats

variable {l v v' : Text} {e : Int} {s t : Text}

/-- An exponent is read as far as its digits go. -/
theorem exponent?_eq_some_iff : exponent? t = some (e, s) ↔
    SpellsExponent e s ∧ ∃ r, t = s ++ r ∧ ∀ x ∈ r.head?, x.isDigit = false := by
  constructor
  · intro h
    cases t with
    | nil => cases h
    | cons c r =>
      rw [exponent?] at h
      split at h
      · next hc =>
        -- The sign is one of three, and it is the front of the text behind the letter.
        obtain ⟨sign, w, hsign, hmem, rfl⟩ : ∃ sign w,
            (r.take 1).filter (fun c => c == '+' || c == '-') = sign ∧
              sign ∈ [[], ['+'], ['-']] ∧ r = sign ++ w := by
          cases r with
          | nil => exact ⟨[], [], rfl, by simp, rfl⟩
          | cons d r =>
            by_cases hd : d = '+' ∨ d = '-'
            · rcases hd with rfl | rfl
              · exact ⟨['+'], r, rfl, by simp, rfl⟩
              · exact ⟨['-'], r, rfl, by simp, rfl⟩
            · exact ⟨[], d :: r, by simpa using hd, by simp, rfl⟩
        simp only [hsign, List.drop_left] at h
        split at h
        · cases h
        · next hne =>
          cases h
          refine ⟨.mk c sign _ hc hmem (by simpa using hne) fun x => List.mem_takeWhile_imp,
            w.dropWhile Char.isDigit, by simp, fun x => of_mem_head?_dropWhile⟩
      · cases h
  · rintro ⟨⟨c, sign, digits, hc, hmem, hne, hdigits⟩, r, rfl, hr⟩
    obtain ⟨d, ds, rfl⟩ := List.exists_cons_of_ne_nil hne
    have htake : (d :: ds ++ r).takeWhile Char.isDigit = d :: ds :=
      Condition.takeWhile_append_of_head hdigits hr
    have hd : d ≠ '+' ∧ d ≠ '-' := by
      have hd := hdigits d (List.mem_cons_self ..)
      constructor <;>
      · rintro rfl
        cases hd
    have hsign : ((sign ++ (d :: ds ++ r)).take 1).filter (fun c => c == '+' || c == '-') =
        sign := by
      simp only [List.mem_cons, List.not_mem_nil, or_false] at hmem
      rcases hmem with rfl | rfl | rfl
      · simp [hd]
      · rfl
      · rfl
    rw [List.cons_append, List.append_assoc, exponent?, if_pos hc]
    simp only [hsign, List.drop_left, htake]
    rfl

/-- An exponent does not go away if there is more text. -/
theorem isSome_exponent?_append {a : Text} (h : (exponent? a).isSome = true) (b : Text) :
    (exponent? (a ++ b)).isSome = true := by
  obtain ⟨⟨e, s⟩, h⟩ := Option.isSome_iff_exists.mp h
  obtain ⟨⟨c, sign, digits, hc, hmem, hne, hdigits⟩, r, rfl, -⟩ := exponent?_eq_some_iff.mp h
  refine Option.isSome_iff_exists.mpr ⟨_, exponent?_eq_some_iff.mpr
    ⟨.mk c sign (digits ++ (r ++ b).takeWhile Char.isDigit) hc hmem (by simp [hne]) ?_,
      (r ++ b).dropWhile Char.isDigit, by simp, fun x => of_mem_head?_dropWhile⟩⟩
  intro x hx
  exact (List.mem_append.mp hx).elim (hdigits x) List.mem_takeWhile_imp

theorem exponent?_cutOff (h : exponent? (l ++ v) = some (e, s)) (hlen : s.length ≤ l.length)
    (hv : v' <+: v) : exponent? (l ++ v') = some (e, s) := by
  obtain ⟨hs, r, hr, hdigit⟩ := exponent?_eq_some_iff.mp h
  obtain ⟨m, rfl⟩ : s <+: l := List.prefix_of_prefix_length_le ⟨r, hr.symm⟩ ⟨v, rfl⟩ hlen
  rw [List.append_assoc] at hr
  have hrest : m ++ v = r := List.append_cancel_left hr
  refine exponent?_eq_some_iff.mpr ⟨hs, m ++ v', List.append_assoc .., fun x hx => ?_⟩
  refine hdigit x ?_
  rw [← hrest]
  exact mem_head?_of_isPrefix ((List.prefix_append_right_inj m).mpr hv) hx

theorem exponent?_eq_none_of_isPrefix {a b : Text} (h : exponent? b = none) (hab : a <+: b) :
    exponent? a = none := by
  obtain ⟨c, rfl⟩ := hab
  rw [← Option.not_isSome_iff_eq_none] at h ⊢
  exact fun ha => h (isSome_exponent?_append ha c)

theorem takeWhile_ne_nil_append {a : Text} (h : a.takeWhile Char.isDigit ≠ []) (b : Text) :
    (a ++ b).takeWhile Char.isDigit ≠ [] := by
  cases a with
  | nil => exact absurd rfl h
  | cons c a =>
    by_cases hc : c.isDigit = true
    · simp [hc]
    · simp [hc] at h

/-- A number with a fraction or an exponent does not go away if there is more text. -/
theorem isSome_decimal?_append {a : Text} (h : (decimal? a).isSome = true) (b : Text) :
    (decimal? (a ++ b)).isSome = true := by
  obtain ⟨d, h⟩ := Option.isSome_iff_exists.mp h
  by_cases hpoint : (a.dropWhile Char.isDigit).head? = some '.'
  · obtain ⟨r, hr⟩ := List.head?_eq_some_iff.mp hpoint
    obtain ⟨htake, hdrop⟩ := span_append (p := Char.isDigit) (by rw [hr]; simp) b
    rw [hr] at hdrop
    rw [decimal?_of_point hdrop, htake]
    rw [decimal?_of_point hr] at h
    split at h
    · cases h
    · next hne =>
      rw [if_neg]
      · rfl
      · simp only [Bool.and_eq_true, List.isEmpty_iff, not_and] at hne ⊢
        exact fun hwhole => takeWhile_ne_nil_append (hne hwhole) b
  · rw [decimal?_of_ne hpoint] at h
    split at h
    · cases h
    · next hne =>
      obtain ⟨⟨e, spelled⟩, he, -⟩ := Option.map_eq_some_iff.mp h
      have hrest : a.dropWhile Char.isDigit ≠ [] := by
        intro hnil
        rw [hnil] at he
        cases he
      obtain ⟨htake, hdrop⟩ := span_append hrest b
      have hpoint' : ((a ++ b).dropWhile Char.isDigit).head? ≠ some '.' := by
        obtain ⟨c, r, hc⟩ := List.exists_cons_of_ne_nil hrest
        rw [hdrop, hc]
        rwa [hc] at hpoint
      rw [decimal?_of_ne hpoint', htake, hdrop, if_neg hne, Option.isSome_map]
      exact isSome_exponent?_append (by rw [he]; rfl) b

theorem decimal?_cutOff {d : Decimal} (h : decimal? (l ++ v) = some d)
    (hlen : d.lexeme.length ≤ l.length) (hv : v' <+: v) : decimal? (l ++ v') = some d := by
  by_cases hpoint : ((l ++ v).dropWhile Char.isDigit).head? = some '.'
  · obtain ⟨r, hr⟩ := List.head?_eq_some_iff.mp hpoint
    rw [decimal?_of_point hr] at h
    split at h
    · cases h
    · next hne =>
      cases h
      simp only [List.length_append, List.length_cons] at hlen
      obtain ⟨m, hl, hdrop, htake, hdrop'⟩ :=
        exists_of_length_takeWhile_le (p := Char.isDigit) (l := l) (v := v) (by omega) hv
      have hm : 0 < m.length := by
        have := congrArg List.length hl
        rw [List.length_append] at this
        omega
      obtain ⟨x, m, rfl⟩ := List.exists_cons_of_ne_nil (List.ne_nil_of_length_pos hm)
      rw [hr, List.cons_append] at hdrop
      obtain ⟨rfl, rfl⟩ := List.cons.inj hdrop
      have hlen' := congrArg List.length hl
      rw [List.length_append, List.length_cons] at hlen'
      obtain ⟨n, hm, hdrop₂, htake₂, hdrop₂'⟩ :=
        exists_of_length_takeWhile_le (p := Char.isDigit) (l := m) (v := v) (by omega) hv
      have hexp : (exponent? (n ++ v')).getD (0, []) = (exponent? (n ++ v)).getD (0, []) := by
        cases he : exponent? (n ++ v) with
        | none =>
          rw [exponent?_eq_none_of_isPrefix he ((List.prefix_append_right_inj n).mpr hv)]
        | some x =>
          rw [hdrop₂, he] at hlen
          have hn := congrArg List.length hm
          rw [List.length_append] at hn
          simp only [Option.getD_some] at hlen
          rw [exponent?_cutOff he (by omega) hv]
      rw [List.cons_append] at hdrop'
      rw [decimal?_of_point hdrop', htake, htake₂, hdrop₂, hdrop₂', hexp, if_neg hne]
  · rw [decimal?_of_ne hpoint] at h
    split at h
    · cases h
    · next hne =>
      obtain ⟨⟨e, spelled⟩, he, rfl⟩ := Option.map_eq_some_iff.mp h
      simp only [List.length_append] at hlen
      obtain ⟨m, hl, hdrop, htake, hdrop'⟩ :=
        exists_of_length_takeWhile_le (p := Char.isDigit) (l := l) (v := v) (by omega) hv
      have hm := congrArg List.length hl
      rw [List.length_append] at hm
      rw [hdrop] at he
      have he' := exponent?_cutOff he (by omega) hv
      have hpoint' : ((l ++ v').dropWhile Char.isDigit).head? ≠ some '.' := by
        rw [hdrop']
        intro hhead
        obtain ⟨r, hr⟩ := List.head?_eq_some_iff.mp hhead
        rw [hr] at he'
        cases he'
      rw [decimal?_of_ne hpoint', htake, hdrop', he', if_neg hne]
      rfl

/-- The text behind a number: the end of a token that is cut off right there, or a text
that starts as before. -/
theorem drop_cutOff {n : Nat} (hn : n ≤ l.length) (hv : v' <+: v) :
    ((l ++ v').drop n = [] ∧ n = l.length) ∨
      ∃ c r r', (l ++ v).drop n = c :: r ∧ (l ++ v').drop n = c :: r' := by
  obtain ⟨w, rfl⟩ := hv
  rw [List.drop_append_of_le_length hn, List.drop_append_of_le_length hn]
  cases hd : l.drop n with
  | cons c r => exact .inr ⟨c, _, _, rfl, rfl⟩
  | nil =>
    cases v' with
    | cons c v' => exact .inr ⟨c, _, _, rfl, rfl⟩
    | nil => exact .inl ⟨rfl, Nat.le_antisymm hn (List.drop_eq_nil_iff.mp hd)⟩

variable {k : Token}

theorem float?_cutOff (h : float? (l ++ v) = some (k, l)) (hv : v' <+: v) :
    float? (l ++ v') = some (k, l) := by
  obtain ⟨d, hd, h⟩ := Option.bind_eq_some_iff.mp h
  have hlen : d.lexeme.length ≤ l.length := by
    repeat' split at h
    all_goals
      cases h
      simp
  rw [float?, decimal?_cutOff hd hlen hv]
  simp only [Option.bind_eq_bind, Option.bind_some]
  rcases drop_cutOff hlen hv with ⟨hnil, hl⟩ | ⟨c, r, r', hc, hc'⟩
  · -- No letter has been read, as there is no room for one.
    rw [hnil]
    repeat' split at h
    all_goals first
      | exact h
      | (rw [← (Prod.mk.inj (Option.some.inj h)).2] at hl; simp at hl)
  · rw [hc] at h
    rw [hc']
    exact h

theorem float?_eq_none_of_isPrefix {a b : Text} (h : float? b = none) (hab : a <+: b) :
    float? a = none := by
  have hsome : ∀ {t d}, decimal? t = some d → float? t ≠ none := by
    intro t d hd hnone
    rw [float?, hd] at hnone
    simp only [Option.bind_eq_bind, Option.bind_some] at hnone
    repeat' split at hnone
    all_goals cases hnone
  obtain ⟨c, rfl⟩ := hab
  cases hd : decimal? a with
  | none =>
    rw [float?, hd]
    rfl
  | some d =>
    obtain ⟨d', hd'⟩ := Option.isSome_iff_exists.mp
      (isSome_decimal?_append (a := a) (by rw [hd]; rfl) c)
    exact absurd h (hsome hd')

end Floats

/-! ### Whole numbers -/

section Whole

variable {l v v' : Text}

theorem hexNumber?_cons_cons (x : Char) (r : Text) : hexNumber? ('0' :: x :: r) =
    if x == 'x' || x == 'X' then
      (fitting? 16 (r.takeWhile isHexDigit)).map (·, '0' :: x :: r.takeWhile isHexDigit)
    else none := rfl

theorem octNumber?_cons (r : Text) : octNumber? ('0' :: r) =
    (fitting? 8 (r.takeWhile isOctDigit)).map (·, '0' :: r.takeWhile isOctDigit) := rfl

/-- Only a zero can start a number that is not decimal. -/
theorem number?_of_ne_zero {c : Char} (hc : c ≠ '0') (r : Text) :
    hexNumber? (c :: r) = none ∧ octNumber? (c :: r) = none := by
  constructor
  · unfold hexNumber?
    split
    · next heq => exact absurd (List.cons.inj heq).1 hc
    · rfl
  · unfold octNumber?
    split
    · next heq => exact absurd (List.cons.inj heq).1 hc
    · rfl

/-- A number that is not hexadecimal has only digits. -/
theorem isDigit_of_whole? {t ds : Text} {n : UInt64} (hhex : hexNumber? t = none)
    (h : whole? t = some (n, ds)) : ∀ x ∈ ds, x.isDigit = true := by
  rw [whole?, hhex, Option.none_or] at h
  rcases Option.or_eq_some_iff.mp h with hoct | ⟨-, hdec⟩
  · clear h
    unfold octNumber? at hoct
    split at hoct
    · obtain ⟨_, -, ⟨⟩⟩ := Option.map_eq_some_iff.mp hoct
      intro x hx
      rcases List.mem_cons.mp hx with rfl | hx
      · rfl
      · exact (Condition.isOctDigit_iff.mp (List.mem_takeWhile_imp hx)).1
    · cases hoct
  · obtain ⟨_, -, ⟨⟩⟩ := Option.map_eq_some_iff.mp hdec
    exact fun x => List.mem_takeWhile_imp

theorem hexNumber?_cutOff {ds : Text} {n : UInt64} (h : hexNumber? (l ++ v) = some (n, ds))
    (hlen : ds.length ≤ l.length) (hv : v' <+: v) : hexNumber? (l ++ v') = some (n, ds) := by
  unfold hexNumber? at h
  split at h
  · next x r heq =>
    split at h
    · next hx =>
      obtain ⟨m, hm, ⟨⟩⟩ := Option.map_eq_some_iff.mp h
      match l with
      | [] => simp at hlen
      | [_] => simp at hlen
      | c :: d :: l =>
        obtain ⟨rfl, rfl, rfl⟩ : c = '0' ∧ d = x ∧ l ++ v = r := by simpa using heq
        have htake := takeWhile_of_length_le (p := isHexDigit) (l := l) (v := v)
          (by simpa using hlen) hv
        rw [List.cons_append, List.cons_append, hexNumber?_cons_cons, if_pos hx, htake, hm]
        rfl
    · cases h
  · cases h

/-- A zero that no `x` follows within the token does not become part of a hexadecimal
number. -/
theorem hexNumber?_eq_none_cutOff (h : hexNumber? ('0' :: (l ++ v)) = none)
    (hl : ∀ x ∈ l.head?, (x == 'x' || x == 'X') = false) (hv : CutOff v' v) :
    hexNumber? ('0' :: (l ++ v')) = none := by
  match l with
  | c :: l => rw [List.cons_append, hexNumber?_cons_cons, hl c rfl]; rfl
  | [] =>
    obtain ⟨⟨w, rfl⟩, hword⟩ := hv
    match v' with
    | [] => rfl
    | x :: v' =>
      rw [List.nil_append, List.cons_append, hexNumber?_cons_cons] at h
      rw [List.nil_append, hexNumber?_cons_cons]
      split
      · next hx =>
        -- The word that starts with `x` is kept, and the digits are part of it.
        rw [if_pos hx] at h
        have hstart : isNameStart x = true := by
          simp only [Bool.or_eq_true, beq_iff_eq] at hx
          rcases hx with rfl | rfl <;> rfl
        have hname := hword.resolve_left (by simp)
        rw [List.cons_append, Text.splitName, Text.splitName, if_pos hstart, if_pos hstart] at hname
        have hrun : v'.takeWhile isNameChar = (v' ++ w).takeWhile isNameChar :=
          (List.cons.inj hname).2
        have hdigits := takeWhile_takeWhile_of_imp (p := isHexDigit) (q := isNameChar)
          fun _ => Condition.isNameChar_of_isHexDigit
        rw [← hdigits, hrun, hdigits]
        rw [Option.map_eq_none_iff] at h ⊢
        exact h
      · rfl

theorem octNumber?_cutOff (hlen : ((l ++ v).takeWhile isOctDigit).length ≤ l.length)
    (hv : v' <+: v) : octNumber? ('0' :: (l ++ v')) = octNumber? ('0' :: (l ++ v)) := by
  rw [octNumber?_cons, octNumber?_cons, takeWhile_of_length_le hlen hv]

theorem decNumber?_cutOff {ds : Text} {n : UInt64} (h : decNumber? (l ++ v) = some (n, ds))
    (hlen : ds.length ≤ l.length) (hv : v' <+: v) : decNumber? (l ++ v') = some (n, ds) := by
  obtain ⟨_, -, heq⟩ := Option.map_eq_some_iff.mp h
  rw [← (Prod.mk.inj heq).2] at hlen
  rw [decNumber?, takeWhile_of_length_le hlen hv]
  exact h

/-- The octal digits behind a zero are no more than the digits that are taken up. -/
theorem takeWhile_isOctDigit_isPrefix {t r : Text} {n : UInt64}
    (h : (octNumber? ('0' :: t)).or (decNumber? ('0' :: t)) = some (n, '0' :: r)) :
    t.takeWhile isOctDigit <+: r := by
  rcases Option.or_eq_some_iff.mp h with hoct | ⟨-, hdec⟩
  · obtain ⟨_, -, heq⟩ := Option.map_eq_some_iff.mp hoct
    rw [(List.cons.inj (Prod.mk.inj heq).2).2]
  · obtain ⟨_, -, heq⟩ := Option.map_eq_some_iff.mp hdec
    have hall := (Prod.mk.inj heq).2
    rw [List.takeWhile_cons_of_pos rfl] at hall
    rw [← (List.cons.inj hall).2, ← takeWhile_takeWhile_of_imp (p := isOctDigit)
      (q := Char.isDigit) fun _ h => (Condition.isOctDigit_iff.mp h).1]
    exact List.takeWhile_prefix _

theorem whole?_cutOff {ds s : Text} {n : UInt64} (h : whole? (ds ++ s ++ v) = some (n, ds))
    (hs : ∀ x ∈ s, (x == 'x' || x == 'X') = false) (hv : CutOff v' v) :
    whole? (ds ++ s ++ v') = some (n, ds) := by
  have hlen : ds.length ≤ (ds ++ s).length := (List.prefix_append ds s).length_le
  rcases Option.or_eq_some_iff.mp h with hhex | ⟨hhex, hother⟩
  · rw [whole?, hexNumber?_cutOff hhex hlen hv.isPrefix]
    rfl
  · have hdigits := isDigit_of_whole? hhex h
    have hdec := fun hdec => decNumber?_cutOff (n := n) hdec hlen hv.isPrefix
    obtain ⟨c, r, rfl⟩ := List.exists_cons_of_ne_nil (whole?_takes h).2
    rw [List.cons_append, List.cons_append] at hhex hother hdec ⊢
    by_cases hc : c = '0'
    · subst hc
      have hhead : ∀ x ∈ (r ++ s).head?, (x == 'x' || x == 'X') = false := by
        intro x hx
        rcases List.mem_append.mp (List.mem_of_mem_head? hx) with hr | hs'
        · have hdigit := hdigits x (List.mem_cons_of_mem _ hr)
          simp only [Bool.or_eq_false_iff, beq_eq_false_iff_ne]
          constructor <;>
          · rintro rfl
            cases hdigit
        · exact hs x hs'
      -- The octal digits end within the token, as the digits do.
      have hoctLen : ((r ++ s ++ v).takeWhile isOctDigit).length ≤ (r ++ s).length :=
        ((takeWhile_isOctDigit_isPrefix hother).trans (List.prefix_append r s)).length_le
      rw [whole?, hexNumber?_eq_none_cutOff hhex hhead hv, octNumber?_cutOff hoctLen hv.isPrefix,
        Option.none_or]
      rcases Option.or_eq_some_iff.mp hother with hoct | ⟨hoct, hdec'⟩
      · rw [hoct]
        rfl
      · rw [hoct, Option.none_or]
        exact hdec hdec'
    · obtain ⟨hhex', hoct'⟩ := number?_of_ne_zero hc (r ++ s ++ v')
      obtain ⟨-, hoct⟩ := number?_of_ne_zero hc (r ++ s ++ v)
      rw [hoct, Option.none_or] at hother
      rw [whole?, hhex', hoct', Option.none_or, Option.none_or]
      exact hdec hother

theorem int?_cutOff {k : Token} (h : int? (l ++ v) = some (k, l)) (hv : CutOff v' v) :
    int? (l ++ v') = some (k, l) := by
  rw [int?_eq] at h ⊢
  obtain ⟨⟨n, ds⟩, hds, h⟩ := Option.bind_eq_some_iff.mp h
  simp only at h
  obtain ⟨s, rfl, hs⟩ : ∃ s, l = ds ++ s ∧ ∀ x ∈ s, (x == 'x' || x == 'X') = false := by
    have hletter : ∀ {c a b : Char}, (c == a || c == b) = true →
        (a == 'x' || a == 'X') = false → (b == 'x' || b == 'X') = false →
        ∀ x ∈ [c], (x == 'x' || x == 'X') = false := by
      intro c a b hc ha hb x hx
      cases List.mem_singleton.mp hx
      simp only [Bool.or_eq_true, beq_iff_eq] at hc
      rcases hc with rfl | rfl
      · exact ha
      · exact hb
    split at h
    · next c r hr =>
      split at h
      · next hc =>
        cases h
        exact ⟨[c], rfl, hletter hc rfl rfl⟩
      · split at h
        · next hc =>
          cases h
          exact ⟨[c], rfl, hletter hc rfl rfl⟩
        · cases h
          exact ⟨[], by simp, nofun⟩
    · cases h
      exact ⟨[], by simp, nofun⟩
  rw [whole?_cutOff hds hs hv]
  simp only [Option.bind_some]
  rcases drop_cutOff (l := ds ++ s) (n := ds.length) (by simp) hv.isPrefix with
    ⟨hnil, hl⟩ | ⟨c, r, r', hc, hc'⟩
  · rw [hnil]
    repeat' split at h
    all_goals first
      | exact h
      | (rw [← (Prod.mk.inj (Option.some.inj h)).2] at hl; simp at hl)
  · rw [hc] at h
    rw [hc']
    exact h

/-- A whole number starts with a digit. -/
theorem int?_of_isDigit_eq_false {c : Char} (hc : c.isDigit = false) (r : Text) :
    int? (c :: r) = none := by
  have hzero : c ≠ '0' := by
    rintro rfl
    cases hc
  obtain ⟨hhex, hoct⟩ := number?_of_ne_zero hzero r
  rw [int?_eq, whole?, hhex, hoct, decNumber?, List.takeWhile_cons_of_neg (by simp [hc])]
  rfl

end Whole

/-! ### Words, symbols and tokens -/

section Tokens

variable {l v v' : Text} {k : Token}

theorem word?_eq_some_iff {t : Text} : word? t = some (k, l) ↔
    (Text.splitName t).1 = l ∧ l ≠ [] ∧ k = ofWord (String.ofList l) := by
  unfold word?
  constructor
  · intro h
    simp only at h
    split at h
    · cases h
    · next hne =>
      obtain ⟨rfl, rfl⟩ := Prod.mk.inj (Option.some.inj h)
      exact ⟨rfl, by simpa using hne, rfl⟩
  · rintro ⟨rfl, hne, rfl⟩
    simp [hne]

theorem word?_cutOff (h : word? (l ++ v) = some (k, l)) (hv : v' <+: v) :
    word? (l ++ v') = some (k, l) := by
  obtain ⟨hname, hne, hk⟩ := word?_eq_some_iff.mp h
  refine word?_eq_some_iff.mpr ⟨?_, hne, hk⟩
  obtain ⟨c, r, rfl⟩ := List.exists_cons_of_ne_nil hne
  rw [List.cons_append, Text.splitName] at hname ⊢
  split at hname
  · next hc =>
    have hrun : (r ++ v).takeWhile isNameChar = r := (List.cons.inj hname).2
    rw [if_pos hc, takeWhile_of_length_le (by rw [hrun]) hv, hrun]
  · cases hname

theorem symbol?_cutOff (h : symbol? (l ++ v) = some (k, l)) (hv : v' <+: v) :
    symbol? (l ++ v') = some (k, l) := by
  obtain ⟨-, s, hs, rfl⟩ := exists_of_symbol? h
  have hall : symbols.all (fun x => x.1.length == 1 || x.1.length == 2) = true := by decide
  have hself : symbols.all (fun x => symbol? x.1 == some (.symbol x.2, x.1)) = true := by decide
  match v', hv with
  | [], _ =>
    rw [List.append_nil]
    exact eq_of_beq (List.all_eq_true.mp hself _ hs)
  | c :: w, ⟨w', hw⟩ =>
    rw [List.cons_append] at hw
    rw [← h, ← hw]
    have hlen := List.all_eq_true.mp hall _ hs
    simp only [Bool.or_eq_true, beq_iff_eq, List.length_eq_one_iff, List.length_eq_two] at hlen
    rcases hlen with ⟨a, rfl⟩ | ⟨a, b, rfl⟩
    · exact (symbol?_cons_cons a c w).trans (symbol?_cons_cons a c (w ++ w')).symm
    · exact (symbol?_cons_cons a b (c :: w)).trans (symbol?_cons_cons a b (c :: (w ++ w'))).symm

/-- **A token is read in the same way if the end of the text is cut off.** -/
theorem first?_cutOff (h : first? (l ++ v) = some (k, l)) (hv : CutOff v' v) :
    first? (l ++ v') = some (k, l) := by
  obtain ⟨c, r, rfl⟩ := List.exists_cons_of_ne_nil (exists_of_first? h).2.1
  -- The first character tells literals and words from the rest.
  by_cases hquote : c = '"'
  · subst hquote
    rw [List.cons_append, first?_quote] at h ⊢
    exact (exists_of_string? h).2.1 v'
  by_cases hname : isNameStart c = true
  · rw [List.cons_append, first?_of_isNameStart hname] at h ⊢
    exact word?_cutOff (l := c :: r) h hv.isPrefix
  have hfirst : ∀ w, first? (c :: r ++ w) =
      (float? (c :: r ++ w)).or ((int? (c :: r ++ w)).or (symbol? (c :: r ++ w))) := by
    intro w
    have hword : word? (c :: r ++ w) = none := by
      simp [word?, Text.splitName, hname]
    rw [first?, hword]
    exact congrArg₂ Option.or rfl (congrArg₂ Option.or rfl
      (congrArg₂ Option.or (string?_cons hquote (r ++ w)) rfl))
  rw [hfirst] at h ⊢
  rcases Option.or_eq_some_iff.mp h with hfloat | ⟨hfloat, h⟩
  · rw [float?_cutOff hfloat hv.isPrefix]
    rfl
  rw [float?_eq_none_of_isPrefix hfloat ((List.prefix_append_right_inj _).mpr hv.isPrefix),
    Option.none_or]
  rcases Option.or_eq_some_iff.mp h with hint | ⟨-, hsymbol⟩
  · rw [int?_cutOff hint hv]
    rfl
  · have hall : symbols.all (fun x => x.1.all fun c => !c.isDigit) = true := by decide
    obtain ⟨-, s, hs, -⟩ := exists_of_symbol? hsymbol
    have hdigit : c.isDigit = false := by
      have := List.all_eq_true.mp (List.all_eq_true.mp hall _ hs) c (List.mem_cons_self ..)
      simpa using this
    rw [List.cons_append, int?_of_isDigit_eq_false hdigit, ← List.cons_append,
      symbol?_cutOff hsymbol hv.isPrefix]
    rfl

end Tokens

end PixelWrap.Token
