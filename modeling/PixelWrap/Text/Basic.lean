/-!
# Source text

Everything this library reads is a list of characters.  Positions are counted in
the bytes of the UTF-8 form, because that is what locations and spans report, so
the module has its own measure and its own cuts in bytes next to the usual
operations on words and lines.

## Main definitions

* `Text`: a file or a slice of it.
* `isSpace`, `isBlank`: the two classes of white space in use.
* `Text.size`, `Text.slice?`: length and slices counted in bytes.
* `Text.lines`: the lines of a text, each with its line end.
* `Text.splitName`: the name that a text starts with.
* `Text.cut?`: the text before and after the first occurrence of a pattern.
-/

namespace PixelWrap

/-- The characters of a file, or of a slice of one, in order. -/
abbrev Text := List Char

/-! ### Classes of characters -/

/-- White space in the sense of Unicode's `White_Space` property. -/
def isSpace (c : Char) : Bool :=
  let n := c.toNat
  (0x9 ≤ n && n ≤ 0xD) || n == 0x20 || n == 0x85 || n == 0xA0 || n == 0x1680 ||
    (0x2000 ≤ n && n ≤ 0x200A) || n == 0x2028 || n == 0x2029 || n == 0x202F ||
    n == 0x205F || n == 0x3000

/-- The four blanks that separate tokens: space, tab, carriage return, line feed. -/
def isBlank (c : Char) : Bool :=
  c == ' ' || c == '\t' || c == '\r' || c == '\n'

/-- A character that can start a name: an ASCII letter or an underscore. -/
def isNameStart (c : Char) : Bool :=
  c.isAlpha || c == '_'

/-- A character that can continue a name: an ASCII letter, a digit or an underscore. -/
def isNameChar (c : Char) : Bool :=
  c.isAlphanum || c == '_'

theorem isNameChar_of_isNameStart {c : Char} (h : isNameStart c = true) :
    isNameChar c = true := by
  simp only [isNameStart, isNameChar, Char.isAlphanum, Bool.or_eq_true] at h ⊢
  exact h.elim (fun h => .inl (.inl h)) .inr

theorem isDigit_of_isNameStart {c : Char} (h : isNameStart c = true) : c.isDigit = false := by
  rw [Bool.eq_false_iff]
  intro hd
  delta isNameStart Char.isAlpha Char.isUpper Char.isLower at h
  delta Char.isDigit at hd
  simp only [Bool.or_eq_true, Bool.and_eq_true, decide_eq_true_eq, beq_iff_eq,
    UInt32.le_iff_toNat_le] at h hd
  rcases h with (h | h) | rfl
  · simp at h hd
    omega
  · simp at h hd
    omega
  · simp at hd

/-- No character of a name separates tokens. -/
theorem isBlank_of_isNameChar {c : Char} (h : isNameChar c = true) : isBlank c = false := by
  rw [Bool.eq_false_iff]
  intro hb
  simp only [isBlank, Bool.or_eq_true, beq_iff_eq] at hb
  rcases hb with ((rfl | rfl) | rfl) | rfl <;> exact absurd h (by decide)

namespace Text

/-! ### Trimming and splitting -/

/-- The text without the white space at its start. -/
def trimStart (t : Text) : Text := t.dropWhile isSpace

/-- The text without the white space at its end. -/
def trimEnd : Text → Text
  | [] => []
  | c :: r =>
    match trimEnd r with
    | [] => if isSpace c then [] else [c]
    | s => c :: s

/-- Where something of a text stays, nothing in front of it is dropped. -/
theorem trimEnd_append {t u : Text} (h : trimEnd u ≠ []) : trimEnd (t ++ u) = t ++ trimEnd u := by
  induction t with
  | nil => rfl
  | cons c t ih =>
    rw [List.cons_append, trimEnd, ih]
    split
    · next hnil => exact absurd (List.append_eq_nil_iff.mp hnil).2 h
    · rfl

/-- White space is not dropped in front of a word. -/
theorem trimEnd_word {w : Text} (hw : ∀ c ∈ w, isSpace c = false) (rest : Text) :
    trimEnd (w ++ rest) = w ++ trimEnd rest := by
  induction w with
  | nil => rfl
  | cons c w ih =>
    obtain ⟨hc, hw⟩ := List.forall_mem_cons.mp hw
    rw [List.cons_append, trimEnd, ih hw]
    split
    · next hnil => simp [hc, hnil]
    · rfl

/-- The text without the white space at either end. -/
def trim (t : Text) : Text := trimEnd (trimStart t)

/-- The maximal runs of characters that are not white space. -/
def words : Text → List Text
  | [] => []
  | c :: r =>
    if isSpace c then words r
    else
      match r, words r with
      | d :: _, w :: ws => if isSpace d then [c] :: w :: ws else (c :: w) :: ws
      | _, ws => [c] :: ws

/-- The lines of a text, each with the line feed that ends it; only the last line
may lack one. -/
def lines : Text → List Text
  | [] => []
  | c :: r =>
    if c == '\n' then [c] :: lines r
    else
      match lines r with
      | [] => [[c]]
      | l :: ls => (c :: l) :: ls

/-- The pieces of a text between the occurrences of a separator. -/
def splitAt (sep : Char) : Text → List Text
  | [] => [[]]
  | c :: r =>
    if c == sep then [] :: splitAt sep r
    else
      match splitAt sep r with
      | [] => [[c]]
      | p :: ps => (c :: p) :: ps

/-- The text before and after the first occurrence of `pat`. -/
def cut? (pat : Text) : Text → Option (Text × Text)
  | [] => if pat.isEmpty then some ([], []) else none
  | c :: r =>
    if pat.isPrefixOf (c :: r) then some ([], (c :: r).drop pat.length)
    else (cut? pat r).map fun (before, after) => (c :: before, after)

/-- A text is its part before the first occurrence of a pattern, the pattern, and
the part after it. -/
theorem eq_of_cut? {pat t before after : Text} (h : cut? pat t = some (before, after)) :
    t = before ++ pat ++ after := by
  induction t generalizing before after with
  | nil =>
    simp only [cut?] at h
    split at h
    · next hp => simp_all
    · simp at h
  | cons c r ih =>
    simp only [cut?] at h
    split at h
    · next hp =>
      obtain ⟨s, hs⟩ := List.isPrefixOf_iff_prefix.mp hp
      simp only [Option.some.injEq, Prod.mk.injEq] at h
      obtain ⟨rfl, rfl⟩ := h
      rw [← hs]
      simp
    · cases hr : cut? pat r with
      | none => simp [hr] at h
      | some p =>
        obtain ⟨b, a⟩ := p
        simp only [hr, Option.map_some, Option.some.injEq, Prod.mk.injEq] at h
        obtain ⟨rfl, rfl⟩ := h
        simp [ih hr]

/-- The first line of a text, without its line end. -/
def firstLine (t : Text) : Text :=
  match cut? ['\n'] t with
  | some (l, _) => if l.getLast? == some '\r' then l.dropLast else l
  | none => t

/-- Whether `pat` occurs in the text. -/
def contains (pat t : Text) : Bool := (cut? pat t).isSome

/-! ### Names -/

/-- The name that the text starts with, empty if there is none, and the text after
it. -/
def splitName (t : Text) : Text × Text :=
  match t with
  | [] => ([], [])
  | c :: r =>
    if isNameStart c then (c :: r.takeWhile isNameChar, r.dropWhile isNameChar)
    else ([], c :: r)

/-- A text is the name it starts with and the text after it. -/
theorem splitName_append (t : Text) : (splitName t).1 ++ (splitName t).2 = t := by
  unfold splitName
  split
  · rfl
  · split <;> simp

/-- Whether the whole text is one name. -/
def isName (t : Text) : Bool :=
  !t.isEmpty && (splitName t).2.isEmpty

/-! ### Counting in bytes -/

/-- The length of the text in bytes. -/
def size (t : Text) : Nat := t.foldl (fun n c => n + c.utf8Size) 0

@[simp] theorem size_nil : size [] = 0 := rfl

@[simp] theorem size_cons (c : Char) (t : Text) : size (c :: t) = c.utf8Size + size t := by
  have count (n : Nat) : t.foldl (fun n c => n + c.utf8Size) n = n + size t := by
    unfold size
    induction t generalizing n with
    | nil => rfl
    | cons d t ih => simp only [List.foldl_cons, ih (n + _), ih (0 + _)]; omega
  simpa [size] using count c.utf8Size

@[simp] theorem size_append (s t : Text) : size (s ++ t) = size s + size t := by
  induction s with
  | nil => simp
  | cons c s ih => simp [ih, Nat.add_assoc]

@[simp] theorem size_replicate (n : Nat) (c : Char) :
    size (List.replicate n c) = n * c.utf8Size := by
  induction n with
  | zero => simp
  | succ n ih => simp [List.replicate_succ, ih, Nat.succ_mul, Nat.add_comm]

/-- The text after its first `n` bytes, if `n` falls between two characters. -/
def dropBytes? (n : Nat) : Text → Option Text
  | [] => if n = 0 then some [] else none
  | c :: r =>
    if n = 0 then some (c :: r)
    else if c.utf8Size ≤ n then dropBytes? (n - c.utf8Size) r
    else none

/-- The first `n` bytes of the text, if `n` falls between two characters. -/
def takeBytes? (n : Nat) : Text → Option Text
  | [] => if n = 0 then some [] else none
  | c :: r =>
    if n = 0 then some []
    else if c.utf8Size ≤ n then (takeBytes? (n - c.utf8Size) r).map (c :: ·)
    else none

/-- The bytes from `start` up to `stop`, if both fall between two characters of the
text and `start` does not lie after `stop`. -/
def slice? (start stop : Nat) (t : Text) : Option Text :=
  if start ≤ stop then (dropBytes? start t).bind (takeBytes? (stop - start)) else none

/-! ### Joining -/

/-- The texts one after the other with `sep` between them. -/
def join (sep : Text) : List Text → Text
  | [] => []
  | [t] => t
  | t :: ts => t ++ sep ++ join sep ts

theorem join_cons_cons (sep t u : Text) (us : List Text) :
    join sep (t :: u :: us) = t ++ sep ++ join sep (u :: us) := rfl

end Text

end PixelWrap
