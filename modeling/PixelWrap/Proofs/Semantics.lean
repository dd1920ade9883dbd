import Mathlib.Tactic.Common
import PixelWrap.Shader.Basic

/-!
# Semantics that do not collide

Two inputs of a shader must not have one semantic.  Simple parameters take the letters in turn,
and all others, and those for which no letter is left, take their position.  The assignment goes
through the parameters once and hands on the letters that are left: these are the letters without
as many as there were simple parameters.  So the letter of a parameter is given by the number of
simple parameters in front of it, and this number grows at each parameter that gets a letter.

## Main definitions

* `letter`: the letters by their number.
* `simpleBefore`: the number of simple parameters in front of a position.

## Main results

* `assignFrom_positional`, `assignFrom_lettered`: what is assigned from a position on, with some
  letters used up.
* `assignSemantics_distinct`: **each parameter gets a semantic of its own.**
-/

namespace PixelWrap

/-! ### Letters and positions -/

/-- The letter of the given number, from zero on. -/
def letter (k : Nat) : Char := Char.ofNat ('A'.toNat + k)

theorem letter_inj {j k : Nat} (hj : j < 26) (hk : k < 26) : letter j = letter k ↔ j = k := by
  have hcode : ∀ k < 26, (letter k).toNat = 'A'.toNat + k := by decide
  constructor
  · intro h
    have hcodes := congrArg Char.toNat h
    rw [hcode j hj, hcode k hk] at hcodes
    omega
  · exact congrArg letter

/-- As long as there are letters left, the first one is that of the number of those used. -/
theorem drop_letters {k : Nat} (hk : k < 26) :
    letters.drop k = letter k :: letters.drop (k + 1) := by
  have hall : ∀ k < 26, letters.drop k = letter k :: letters.drop (k + 1) := by decide
  exact hall k hk

theorem drop_letters_eq_nil {k : Nat} (hk : 26 ≤ k) : letters.drop k = [] := by
  apply List.drop_eq_nil_of_le
  exact hk

theorem positional_inj {i j : Nat} : positional i = positional j ↔ i = j := by
  constructor
  · intro h
    have hdigits : Nat.toDigits 10 i = Nat.toDigits 10 j := by
      rw [← Nat.toList_repr, ← Nat.toList_repr]
      exact List.append_cancel_left h
    have hvalues := congrArg (Nat.ofDigitChars 10 · 0) hdigits
    simpa only [Nat.ofDigitChars_ten_toDigits] using hvalues
  · exact congrArg positional

/-- A letter is no position. -/
theorem positional_ne_singleton (i : Nat) (c : Char) : positional i ≠ [c] := by
  intro h
  have hlength : (positional i).length = 5 + (toString i).toList.length := List.length_append
  rw [h, List.length_singleton] at hlength
  omega

/-! ### What is assigned -/

/-- The number of simple parameters in front of a position. -/
def simpleBefore (ps : List Param) (i : Nat) : Nat := (ps.take i).countP Param.isSimple

@[simp] theorem simpleBefore_zero (ps : List Param) : simpleBefore ps 0 = 0 := rfl

theorem simpleBefore_cons_succ (p : Param) (ps : List Param) (i : Nat) :
    simpleBefore (p :: ps) (i + 1) = simpleBefore ps i + if p.isSimple then 1 else 0 := by
  rw [simpleBefore, List.take_succ_cons, List.countP_cons]
  rfl

/-- A simple parameter is counted behind it. -/
theorem simpleBefore_lt {ps : List Param} {i j : Nat} (hi : i < ps.length)
    (hsimple : ps[i].isSimple = true) (hij : i < j) : simpleBefore ps i < simpleBefore ps j := by
  have hnext : simpleBefore ps (i + 1) = simpleBefore ps i + 1 := by
    rw [simpleBefore, List.take_succ_eq_append_getElem hi, List.countP_append,
      List.countP_singleton, if_pos hsimple]
    rfl
  have hle : simpleBefore ps (i + 1) ≤ simpleBefore ps j :=
    (List.take_sublist_take_left hij).countP_le
  omega

/-- A parameter that is not simple, and any one without a letter left, gets its position. -/
theorem assignFrom_position {policy : SemanticPolicy} {free : List Char} {p : Param}
    (h : policy = .positional ∨ p.isSimple = false ∨ free = []) (index : Nat) (ps : List Param) :
    assignFrom policy index free (p :: ps) =
      positional index :: assignFrom policy (index + 1) free ps := by
  rw [assignFrom.eq_def]
  dsimp only
  split
  · next hsimple =>
    rcases h with rfl | h | rfl
    · cases hsimple.1
    · rw [h] at hsimple
      cases hsimple.2
    · rfl
  · rfl

/-- A simple parameter gets the first letter that is left. -/
theorem assignFrom_letter {p : Param} (hp : p.isSimple = true) (index : Nat) (l : Char)
    (free : List Char) (ps : List Param) :
    assignFrom .lettered index (l :: free) (p :: ps) =
      [l] :: assignFrom .lettered (index + 1) free ps :=
  if_pos ⟨rfl, hp⟩

/-- By position, each parameter gets its own. -/
theorem assignFrom_positional (index : Nat) (free : List Char) (ps : List Param) :
    assignFrom .positional index free ps = ps.mapIdx fun i _ => positional (index + i) := by
  induction ps generalizing index with
  | nil => rfl
  | cons p ps ih =>
    rw [assignFrom_position (.inl rfl), ih, List.mapIdx_cons]
    simp only [Nat.add_zero, Nat.add_assoc, Nat.add_comm 1]

/-- The semantic of the parameter at position `i`, where `k` letters are used up. -/
def semanticAt (k i : Nat) (p : Param) : Text :=
  if p.isSimple ∧ k < 26 then [letter k] else positional i

/-- One parameter is assigned its semantic, and a simple one uses up a letter. -/
theorem assignFrom_cons (index k : Nat) (p : Param) (ps : List Param) :
    assignFrom .lettered index (letters.drop k) (p :: ps) = semanticAt k index p ::
      assignFrom .lettered (index + 1) (letters.drop (k + if p.isSimple then 1 else 0)) ps := by
  by_cases hp : p.isSimple = true
  · rw [if_pos hp]
    by_cases hk : k < 26
    · rw [drop_letters hk, assignFrom_letter hp, semanticAt, if_pos ⟨hp, hk⟩]
    · -- Without letters, it does not matter how many are used up.
      have hnone := drop_letters_eq_nil (Nat.le_of_not_lt hk)
      have hnext := drop_letters_eq_nil (k := k + 1) (by omega)
      rw [hnext, hnone, assignFrom_position (.inr (.inr rfl)), semanticAt,
        if_neg fun h => hk h.2]
  · have hused : (k + if p.isSimple then 1 else 0) = k := by simp [hp]
    rw [hused, assignFrom_position (.inr (.inl (by simpa using hp))), semanticAt,
      if_neg fun h => hp h.1]

/-- **What is assigned from a position on, where some letters are used up.**  Of the letters that
are handed on, as many are missing as there were simple parameters. -/
theorem assignFrom_lettered (index k : Nat) (ps : List Param) :
    assignFrom .lettered index (letters.drop k) ps =
      ps.mapIdx fun i p => semanticAt (k + simpleBefore ps i) (index + i) p := by
  induction ps generalizing index k with
  | nil => rfl
  | cons p ps ih =>
    rw [assignFrom_cons, ih, List.mapIdx_cons]
    simp only [simpleBefore_zero, simpleBefore_cons_succ, Nat.add_zero, Nat.add_assoc,
      Nat.add_comm 1, Nat.add_comm (if p.isSimple = true then 1 else 0)]

/-! ### Distinct semantics -/

/-- What stands at two positions differs if the two positions do. -/
theorem nodup_mapIdx {α β : Type} {f : Nat → α → β} {l : List α}
    (h : ∀ i j (hi : i < l.length) (hj : j < l.length), i < j → f i l[i] ≠ f j l[j]) :
    (l.mapIdx f).Nodup := by
  rw [List.Nodup, List.pairwise_iff_getElem]
  intro i j hi hj hij
  rw [List.getElem_mapIdx, List.getElem_mapIdx]
  rw [List.length_mapIdx] at hi hj
  exact h i j hi hj hij

/-- Two parameters get one letter only if they stand at one position. -/
theorem semanticAt_ne {ps : List Param} {i j : Nat} (hi : i < ps.length) (hj : j < ps.length)
    (hij : i < j) :
    semanticAt (simpleBefore ps i) i ps[i] ≠ semanticAt (simpleBefore ps j) j ps[j] := by
  intro h
  rw [semanticAt, semanticAt] at h
  split at h
  · next hletter =>
    split at h
    · next hletter' =>
      have hlt := simpleBefore_lt hi hletter.1 hij
      have heq := (letter_inj hletter.2 hletter'.2).mp (List.singleton_inj.mp h)
      omega
    · exact positional_ne_singleton _ _ h.symm
  · split at h
    · exact positional_ne_singleton _ _ h
    · exact absurd (positional_inj.mp h) (Nat.ne_of_lt hij)

/-- **Each parameter gets a semantic of its own.**  By position it is `COLOR` and the number of
the position.  With letters, a simple parameter gets the letter of the number of simple ones in
front of it, as long as there is one, and any other parameter its position. -/
theorem assignSemantics_distinct (ps : List Param) :
    (∀ policy, (assignSemantics policy ps).length = ps.length ∧
      (assignSemantics policy ps).Nodup) ∧
    assignSemantics .positional ps =
      ps.mapIdx (fun i _ => "COLOR".toList ++ (toString i).toList) ∧
    assignSemantics .lettered ps = ps.mapIdx fun i p =>
      if p.isSimple ∧ simpleBefore ps i < 26 then [letter (simpleBefore ps i)]
      else "COLOR".toList ++ (toString i).toList := by
  have hposition : assignSemantics .positional ps = ps.mapIdx fun i _ => positional i := by
    rw [assignSemantics, assignFrom_positional]
    simp only [Nat.zero_add]
  have hletter : assignSemantics .lettered ps =
      ps.mapIdx fun i p => semanticAt (simpleBefore ps i) i p := by
    have hall := assignFrom_lettered 0 0 ps
    simp only [Nat.zero_add] at hall
    exact hall
  refine ⟨fun policy => ?_, hposition, hletter⟩
  cases policy with
  | positional =>
    rw [hposition]
    refine ⟨List.length_mapIdx, nodup_mapIdx fun i j _ _ hij h => ?_⟩
    exact absurd (positional_inj.mp h) (Nat.ne_of_lt hij)
  | lettered =>
    rw [hletter]
    exact ⟨List.length_mapIdx, nodup_mapIdx fun i j => semanticAt_ne⟩

end PixelWrap
