import PixelWrap.Proofs.Blanking
import PixelWrap.Proofs.Bodies

/-!
# Overwriting comments byte for byte

All offsets that are shown come from a text whose comments have been overwritten, so the
overwriting must not move a byte.  It is described here from the outside: a byte is overwritten
if it lies in a comment and does not end a line, and where the comments are is judged by what
closes them, not by a scan that goes from mode to mode.

The scan may as well work on bytes.  A character with more than one byte has none that the scan
looks for, so it is overwritten as a whole or left as it is, and what comes out is the form of a
text again.  Nothing that looks like a comment is left in it.

## Main definitions

* `Comment.blankBytes`: the scan on the bytes of a text.
* `Comment.inside`: whether a byte of a text lies in a comment.

## Main results

* `Comment.blankBytes_bytes`: the scan on bytes comes to the bytes of what the scan on characters
  comes to.
* `Comment.getElem?_bytes_blank`: which bytes are overwritten.
* `Comment.blank_blank`: overwriting comments twice is overwriting them once.
* `Comment.blank_exact`: **overwriting comments keeps all bytes but those of the comments.**
-/

namespace PixelWrap

open Text (bytes size)

namespace Text

variable {c d : Char} {t : Text} {y : List UInt8}

theorem bytes_cons_of_eq_one (hc : c.utf8Size = 1) (t : Text) :
    bytes (c :: t) = c.val.toUInt8 :: bytes t := by
  rw [bytes_cons, String.utf8EncodeChar_eq_singleton hc]
  rfl

/-- What a text starts with is seen from its bytes. -/
theorem exists_of_bytes_eq_cons (hd : d.utf8Size = 1) (h : bytes t = d.val.toUInt8 :: y) :
    ∃ r, t = d :: r := by
  obtain ⟨x, r, rfl, hx⟩ := exists_of_getElem?_bytes (n := 0) hd (by rw [h]; rfl)
  obtain rfl : x = [] := eq_nil_of_size hx
  exact ⟨r, rfl⟩

/-- The bytes of a text make up a mark only if its characters do. -/
theorem false_of_bytes_mark {a : Char} (hc : c.utf8Size = 1) (ha : a.utf8Size = 1)
    (hd : d.utf8Size = 1) (h : ∀ s, c = a → t = d :: s → False) (y : List UInt8)
    (hb : c.val.toUInt8 = a.val.toUInt8) (ht : bytes t = d.val.toUInt8 :: y) : False := by
  obtain ⟨s, hs⟩ := exists_of_bytes_eq_cons hd ht
  exact h s (eq_of_toUInt8 hc ha hb) hs

theorem toUInt8_beq (hc : c.utf8Size = 1) (hd : d.utf8Size = 1) :
    (c.val.toUInt8 == d.val.toUInt8) = (c == d) := by
  rw [Bool.eq_iff_iff, beq_iff_eq, beq_iff_eq]
  constructor
  · exact eq_of_toUInt8 hc hd
  · rintro rfl
    rfl

theorem toUInt8_beq_quote (hc : c.utf8Size = 1) : (c.val.toUInt8 == 34) = (c == '"') :=
  toUInt8_beq hc (d := '"') rfl

theorem toUInt8_beq_lineFeed (hc : c.utf8Size = 1) : (c.val.toUInt8 == 10) = (c == '\n') :=
  toUInt8_beq hc (d := '\n') rfl

end Text

namespace Comment

/-! ### The scan on bytes -/

/-- What stands in place of a byte of a comment: line ends stay, and any other byte becomes a
space. -/
def blankByte (b : UInt8) : UInt8 := if b == 10 || b == 13 then b else 32

/-- The bytes of a text with those of comments overwritten, from the given mode on. -/
def blankBytes : Mode → List UInt8 → List UInt8
  | _, [] => []
  | .code, 47 :: 47 :: r => 32 :: 32 :: blankBytes .line r
  | .code, 47 :: 42 :: r => 32 :: 32 :: blankBytes .block r
  | .code, b :: r => b :: blankBytes (if b == 34 then .quoted else .code) r
  | .line, b :: r => blankByte b :: blankBytes (if b == 10 then .code else .line) r
  | .block, 42 :: 47 :: r => 32 :: 32 :: blankBytes .code r
  | .block, b :: r => blankByte b :: blankBytes .block r
  | .quoted, 92 :: b :: r => 92 :: b :: blankBytes .quoted r
  | .quoted, b :: r => b :: blankBytes (if b == 34 || b == 10 then .code else .quoted) r

/-- What the mode makes of a byte that does not end it. -/
def Mode.write : Mode → UInt8 → UInt8
  | .code | .quoted => id
  | .line | .block => blankByte

section Bytes

variable {m : Mode} {c : Char} {b : UInt8} {l r : List UInt8}

theorem beq_eq_false_of_le {d : UInt8} (hb : 128 ≤ b) (hd : d < 128) : (b == d) = false := by
  rw [beq_eq_false_iff_ne]
  rintro rfl
  exact absurd hd (UInt8.not_lt.mpr hb)

/-- A byte of a character that has more than one does not change the mode. -/
theorem blankBytes_cons_of_le (hb : 128 ≤ b) :
    blankBytes m (b :: r) = m.write b :: blankBytes m r := by
  have hne : ∀ {d : UInt8}, d < 128 → b ≠ d := fun hd => by
    simpa using beq_eq_false_of_le hb hd
  have hquote : (b == 34) = false := beq_eq_false_of_le hb (by decide)
  have hfeed : (b == 10) = false := beq_eq_false_of_le hb (by decide)
  cases m with
  | code =>
    rw [blankBytes, hquote]
    · rfl
    · exact fun _ h => absurd h (hne (by decide))
    · exact fun _ h => absurd h (hne (by decide))
  | line =>
    rw [blankBytes, hfeed]
    rfl
  | block =>
    rw [blankBytes]
    · rfl
    · exact fun _ h => absurd h (hne (by decide))
  | quoted =>
    rw [blankBytes, hquote, hfeed]
    · rfl
    · exact fun _ _ h => absurd h (hne (by decide))

theorem blankBytes_append_of_le (hl : ∀ b ∈ l, 128 ≤ b) :
    blankBytes m (l ++ r) = l.map m.write ++ blankBytes m r := by
  induction l with
  | nil => rfl
  | cons b l ih =>
    obtain ⟨hb, hl⟩ := List.forall_mem_cons.mp hl
    rw [List.cons_append, blankBytes_cons_of_le hb, ih hl]
    rfl

theorem bytes_replicate_space (n : Nat) : bytes (List.replicate n ' ') = List.replicate n 32 := by
  induction n with
  | zero => rfl
  | succ n ih =>
    rw [List.replicate_succ, Text.bytes_cons_of_eq_one rfl, ih]
    rfl

/-- A character of a comment is overwritten byte for byte. -/
theorem bytes_blankChar (c : Char) :
    bytes (blankChar c) = (String.utf8EncodeChar c).map blankByte := by
  by_cases hend : c = '\n' ∨ c = '\r'
  · rcases hend with rfl | rfl <;> rfl
  · have hspaces : (String.utf8EncodeChar c).map blankByte = List.replicate c.utf8Size 32 := by
      rw [← String.length_utf8EncodeChar c]
      refine List.eq_replicate_iff.mpr ⟨List.length_map _, ?_⟩
      intro b hb
      obtain ⟨x, hx, rfl⟩ := List.mem_map.mp hb
      have hne : (x == 10 || x == 13) = false := by
        by_cases hc : c.utf8Size = 1
        · rw [String.utf8EncodeChar_eq_singleton hc, List.mem_singleton] at hx
          subst hx
          rw [not_or] at hend
          have hfeed := Text.toUInt8_beq_lineFeed hc
          have hreturn := Text.toUInt8_beq hc (d := '\r') rfl
          rw [beq_eq_false_iff_ne.mpr hend.1] at hfeed
          rw [beq_eq_false_iff_ne.mpr hend.2] at hreturn
          exact Bool.or_eq_false_iff.mpr ⟨hfeed, hreturn⟩
        · have hle := Text.le_of_mem_utf8EncodeChar hx hc
          rw [beq_eq_false_of_le hle (by decide), beq_eq_false_of_le hle (by decide)]
          rfl
      rw [blankByte, hne]
      rfl
    have hend' : (c == '\n' || c == '\r') = false := by simpa using hend
    rw [blankChar, hend', hspaces]
    exact bytes_replicate_space _

end Bytes

section Bytes

variable {m : Mode} {c : Char} {r t : Text}

/-- A character with more than one byte does not change the mode. -/
theorem blankBytes_bytes_cons (hc : c.utf8Size ≠ 1) :
    blankBytes m (bytes (c :: t)) =
      (String.utf8EncodeChar c).map m.write ++ blankBytes m (bytes t) := by
  rw [Text.bytes_cons]
  exact blankBytes_append_of_le fun b hb => Text.le_of_mem_utf8EncodeChar hb hc

theorem beq_eq_false_of_ne_one {d : Char} (hc : c.utf8Size ≠ 1) (hd : d.utf8Size = 1) :
    (c == d) = false := by
  rw [beq_eq_false_iff_ne]
  rintro rfl
  exact hc hd

/-- Behind its first byte, a character has none that the scan looks for. -/
theorem exists_utf8EncodeChar_eq (c : Char) :
    ∃ b l, String.utf8EncodeChar c = b :: l ∧ ∀ x ∈ l, 128 ≤ x := by
  by_cases hc : c.utf8Size = 1
  · exact ⟨_, [], String.utf8EncodeChar_eq_singleton hc, nofun⟩
  · have hle := fun b hb => Text.le_of_mem_utf8EncodeChar (c := c) (b := b) hb hc
    cases hl : String.utf8EncodeChar c with
    | nil =>
      have hlength := String.length_utf8EncodeChar c
      have hpos := c.utf8Size_pos
      rw [hl, List.length_nil] at hlength
      omega
    | cons b l =>
      rw [hl] at hle
      exact ⟨b, l, rfl, (List.forall_mem_cons.mp hle).2⟩

/-- **The scan on bytes comes to the bytes of what the scan on characters comes to.** -/
theorem blankBytes_bytes (m : Mode) (t : Text) :
    blankBytes m (bytes t) = bytes (blankFrom m t) := by
  fun_induction blankFrom m t with
  | case1 => exact blankBytes.eq_1 _
  | case2 r ih =>
    show 32 :: 32 :: blankBytes .line (bytes r) = _
    rw [ih]
    rfl
  | case3 r ih =>
    show 32 :: 32 :: blankBytes .block (bytes r) = _
    rw [ih]
    rfl
  | case4 c r hline hblock ih =>
    by_cases hc : c.utf8Size = 1
    · rw [Text.bytes_cons_of_eq_one hc, Text.bytes_cons_of_eq_one hc, blankBytes,
        Text.toUInt8_beq_quote hc, ih]
      · exact Text.false_of_bytes_mark hc (a := '/') (d := '/') rfl rfl hline
      · exact Text.false_of_bytes_mark hc (a := '/') (d := '*') rfl rfl hblock
    · rw [blankBytes_bytes_cons hc, Text.bytes_cons, ← ih, beq_eq_false_of_ne_one hc rfl]
      exact congrArg (· ++ _) (List.map_id _)
  | case5 c r ih =>
    rw [Text.bytes_append, bytes_blankChar, ← ih]
    by_cases hc : c.utf8Size = 1
    · rw [Text.bytes_cons_of_eq_one hc, String.utf8EncodeChar_eq_singleton hc, blankBytes,
        Text.toUInt8_beq_lineFeed hc]
      rfl
    · rw [blankBytes_bytes_cons hc, beq_eq_false_of_ne_one hc rfl]
      rfl
  | case6 r ih =>
    show 32 :: 32 :: blankBytes .code (bytes r) = _
    rw [ih]
    rfl
  | case7 c r hclose ih =>
    rw [Text.bytes_append, bytes_blankChar, ← ih]
    by_cases hc : c.utf8Size = 1
    · rw [Text.bytes_cons_of_eq_one hc, String.utf8EncodeChar_eq_singleton hc, blankBytes]
      · rfl
      · exact Text.false_of_bytes_mark hc (a := '*') (d := '/') rfl rfl hclose
    · exact blankBytes_bytes_cons hc
  | case8 c r ih =>
    obtain ⟨b, l, hcode, hl⟩ := exists_utf8EncodeChar_eq c
    rw [Text.bytes_cons_of_eq_one (c := '\\') rfl, Text.bytes_cons_of_eq_one (c := '\\') rfl,
      Text.bytes_cons, Text.bytes_cons, hcode, ← ih]
    show 92 :: b :: blankBytes .quoted (l ++ bytes r) = 92 :: b :: (l ++ _)
    rw [blankBytes_append_of_le hl]
    exact congrArg (fun x => 92 :: b :: (x ++ _)) (List.map_id l)
  | case9 c r hescape ih =>
    by_cases hc : c.utf8Size = 1
    · rw [Text.bytes_cons_of_eq_one hc, Text.bytes_cons_of_eq_one hc, blankBytes,
        Text.toUInt8_beq_quote hc, Text.toUInt8_beq_lineFeed hc, ih]
      -- A backslash stands at the end of the text.
      intro b y hb hr
      cases r with
      | nil => cases hr
      | cons d r => exact hescape d r (Text.eq_of_toUInt8 hc rfl hb) rfl
    · rw [blankBytes_bytes_cons hc, Text.bytes_cons, ← ih, beq_eq_false_of_ne_one hc rfl,
        beq_eq_false_of_ne_one hc rfl]
      exact congrArg (· ++ _) (List.map_id _)

end Bytes

/-! ### Where comments are -/

/-- Whether the byte at offset `n` of the text lies in a comment.  A comment that starts with two
slashes goes up to the end of its line, and one that starts with a slash and a star up to the
first mark that closes it, or to the end of the text.  None starts in a string literal. -/
def inside : Text → Nat → Bool
  | [], _ => false
  | '/' :: '/' :: r, n =>
    let line := '/' :: '/' :: r.takeWhile (· != '\n')
    n < size line || inside (r.dropWhile (· != '\n')) (n - size line)
  | '/' :: '*' :: r, n =>
    match _h : Text.cut? ['*', '/'] r with
    | none => n < size ('/' :: '*' :: r)
    | some (body, after) =>
      let block := '/' :: '*' :: body ++ ['*', '/']
      n < size block || inside after (n - size block)
  | '"' :: r, n =>
    let literal := '"' :: (Quoted.split r).1
    size literal ≤ n && inside (Quoted.split r).2 (n - size literal)
  | c :: r, n => c.utf8Size ≤ n && inside r (n - c.utf8Size)
termination_by t => t.length
decreasing_by
  · have hle := (List.dropWhile_suffix (l := r) (· != '\n')).length_le
    simp only [List.length_cons]
    omega
  · have hlength := congrArg List.length (Text.eq_of_cut? _h)
    simp only [List.length_append, List.length_cons] at hlength ⊢
    omega
  · exact Nat.lt_succ_of_le (Quoted.split_snd_suffix r).length_le
  · exact Nat.lt_succ_self _

/-! ### What is overwritten -/

section Pieces

variable {c : Char} {r body after : Text}

/-- A comment up to the end of its line is overwritten. -/
theorem blank_line (r : Text) : blank ('/' :: '/' :: r) =
    ('/' :: '/' :: r.takeWhile (· != '\n')).flatMap blankChar ++
      blank (r.dropWhile (· != '\n')) := by
  have hbody : '\n' ∉ r.takeWhile (· != '\n') := by
    intro hmem
    cases List.mem_takeWhile_imp hmem
  have hrest : blankFrom .line (r.dropWhile (· != '\n')) = blank (r.dropWhile (· != '\n')) := by
    cases hdrop : r.dropWhile (· != '\n') with
    | nil => rfl
    | cons c rest =>
      have hc : (c != '\n') = false := by
        have hhead := List.head?_dropWhile_not (· != '\n') r
        rwa [hdrop] at hhead
      obtain rfl : c = '\n' := by simpa using hc
      rfl
  have hleads := (leads_openLine.append (leads_line hbody)).text (r.dropWhile (· != '\n'))
  rw [List.append_assoc, List.takeWhile_append_dropWhile, hrest] at hleads
  exact hleads

theorem blank_block_of_eq_none (h : Text.cut? ['*', '/'] r = none) :
    blank ('/' :: '*' :: r) = ('/' :: '*' :: r).flatMap blankChar := by
  show ' ' :: ' ' :: blankFrom .block r = _
  rw [(blankFrom_block (Text.cut?_eq_none_iff.mp h)).1]
  rfl

/-- A comment up to the mark that closes it is overwritten. -/
theorem blank_block_of_eq_some (h : Text.cut? ['*', '/'] r = some (body, after)) :
    blank ('/' :: '*' :: r) =
      ('/' :: '*' :: body ++ ['*', '/']).flatMap blankChar ++ blank after := by
  obtain ⟨rfl, hbody⟩ := Token.cut?_eq_some_iff.mp h
  have hleads := (leads_openBlock.append (leads_block hbody)).text after
  rw [List.append_assoc, List.append_assoc] at hleads
  refine hleads.trans ?_
  rw [List.flatMap_append]
  rfl

/-- A literal is left as it is. -/
theorem blankFrom_quoted (r : Text) :
    blankFrom .quoted r = (Quoted.split r).1 ++ blank (Quoted.split r).2 := by
  induction r using Quoted.literal_induction with
  | nil | backslash | quote | lineFeed => rfl
  | escape c r ih =>
    rw [blankFrom, ih]
    rfl
  | other c r hslash hquote hfeed ih =>
    rw [Quoted.split_other hslash hquote hfeed, List.cons_append, ← ih]
    exact (leads_quoted_other hslash hquote hfeed).text r

end Pieces

/-- What becomes of a byte if it lies in a comment, and if it does not. -/
def overwrite (covered : Bool) (b : UInt8) : UInt8 := if covered then blankByte b else b

section Overwrite

variable {r s out out' : Text} {k k' : Bool} {n : Nat}

theorem bytes_flatMap_blankChar (s : Text) :
    bytes (s.flatMap blankChar) = (bytes s).map (overwrite true) := by
  induction s with
  | nil => rfl
  | cons c s ih =>
    rw [List.flatMap_cons, Text.bytes_append, bytes_blankChar, ih, Text.bytes_cons,
      List.map_append]
    rfl

theorem bytes_eq_map_overwrite (s : Text) : bytes s = (bytes s).map (overwrite false) :=
  (List.map_id _).symm

/-- A byte of a text whose front is overwritten or left as a whole. -/
theorem getElem?_append_overwrite (hs : bytes out = (bytes s).map (overwrite k))
    (hr : (bytes out')[n - size s]? = ((bytes r)[n - size s]?).map (overwrite k')) :
    (bytes (out ++ out'))[n]? =
      ((bytes (s ++ r))[n]?).map (overwrite (if n < size s then k else k')) := by
  have hlength := congrArg List.length hs
  rw [List.length_map, Text.length_bytes, Text.length_bytes] at hlength
  rw [Text.bytes_append, Text.bytes_append]
  by_cases hn : n < size s
  · rw [if_pos hn, List.getElem?_append_left (by rw [Text.length_bytes]; omega),
      List.getElem?_append_left (by rwa [Text.length_bytes]), hs, List.getElem?_map]
  · rw [if_neg hn, List.getElem?_append_right (by rw [Text.length_bytes]; omega),
      List.getElem?_append_right (by rw [Text.length_bytes]; omega), Text.length_bytes,
      Text.length_bytes, hlength, hr]

/-- **A byte is overwritten if it lies in a comment, and kept if it does not.** -/
theorem getElem?_bytes_blank (t : Text) (n : Nat) :
    (bytes (blank t))[n]? = ((bytes t)[n]?).map (overwrite (inside t n)) := by
  fun_induction inside t n with
  | case1 => rfl
  | case2 r n line ih =>
    have hbyte := getElem?_append_overwrite (bytes_flatMap_blankChar line) ih
    have htext : line ++ r.dropWhile (· != '\n') = '/' :: '/' :: r :=
      congrArg ('/' :: '/' :: ·) List.takeWhile_append_dropWhile
    rw [← blank_line, htext] at hbyte
    rw [hbyte]
    congr 2
    by_cases hn : n < size line <;> simp [hn]
  | case3 r n h =>
    rw [blank_block_of_eq_none h, bytes_flatMap_blankChar, List.getElem?_map]
    by_cases hn : n < size ('/' :: '*' :: r)
    · rw [decide_eq_true hn]
    · rw [List.getElem?_eq_none (by rw [Text.length_bytes]; omega)]
      rfl
  | case4 r n body after h block ih =>
    have hbyte := getElem?_append_overwrite (bytes_flatMap_blankChar block) ih
    have htext : block ++ after = '/' :: '*' :: r := by
      rw [Text.eq_of_cut? h]
      simp [block]
    rw [← blank_block_of_eq_some h, htext] at hbyte
    rw [hbyte]
    congr 2
    by_cases hn : n < size block <;> simp [hn]
  | case5 r n literal ih =>
    have hbyte := getElem?_append_overwrite (bytes_eq_map_overwrite literal) ih
    have hblank : blank ('"' :: r) = literal ++ blank (Quoted.split r).2 :=
      congrArg ('"' :: ·) (blankFrom_quoted r)
    have htext : literal ++ (Quoted.split r).2 = '"' :: r :=
      congrArg ('"' :: ·) (Quoted.split_append r)
    rw [← hblank, htext] at hbyte
    rw [hbyte]
    congr 2
    by_cases hn : n < size literal
    · simp [hn]
    · simp [hn, Nat.le_of_not_lt hn]
  | case6 c r n hline hblock hquote ih =>
    have hsize : size [c] = c.utf8Size := Text.size_cons _ _
    rw [← hsize] at ih
    have hbyte := getElem?_append_overwrite (bytes_eq_map_overwrite [c]) ih
    rw [List.singleton_append, ← blank_cons hquote (kept_of_ne hline hblock), hsize] at hbyte
    rw [List.singleton_append] at hbyte
    rw [hbyte]
    congr 2
    by_cases hn : n < c.utf8Size
    · simp [hn]
    · simp [hn, Nat.le_of_not_lt hn]

end Overwrite

/-! ### Overwriting twice -/

/-- The mode in which a text is read again that was overwritten in the given one. -/
def Mode.reread : Mode → Mode
  | .quoted => .quoted
  | .code | .line | .block => .code

theorem leads_blankChar (c : Char) : Leads .code (blankChar c) (blankChar c) .code := by
  apply leads_all
  intro x hx
  have hblank := isBlank_of_mem_blankChar hx
  constructor
  · rintro rfl
    cases hblank
  · rintro rfl
    cases hblank

theorem leads_spaces : Leads .code [' ', ' '] [' ', ' '] .code :=
  (leads_blankChar '/').append (leads_blankChar '/')

/-- A character that is left starts no comment with what is left behind it. -/
theorem Kept.blank {c : Char} {r : Text} (hq : c ≠ '"') (h : Kept c r) : Kept c (blank r) := by
  have hcons := blank_cons hq h
  apply kept_of_ne
  · rintro s rfl hs
    exact blank_ne_comment.1 (hcons.trans (congrArg ('/' :: ·) hs))
  · rintro s rfl hs
    exact blank_ne_comment.2 (hcons.trans (congrArg ('/' :: ·) hs))

theorem blankFrom_blankFrom (m : Mode) (t : Text) :
    blankFrom m.reread (blankFrom m t) = blankFrom m t := by
  fun_induction blankFrom m t with
  | case1 m => cases m <;> rfl
  | case2 r ih => exact (leads_spaces.text _).trans (congrArg (' ' :: ' ' :: ·) ih)
  | case3 r ih => exact (leads_spaces.text _).trans (congrArg (' ' :: ' ' :: ·) ih)
  | case4 c r hline hblock ih =>
    by_cases hq : c = '"'
    · subst hq
      exact congrArg ('"' :: ·) ih
    · have hmode : (c == '"') = false := beq_eq_false_iff_ne.mpr hq
      rw [hmode] at ih ⊢
      have hkept := kept_of_ne hline hblock
      exact (blank_cons hq (hkept.blank hq)).trans (congrArg (c :: ·) ih)
  | case5 c r ih =>
    have hmode : (if c == '\n' then Mode.code else Mode.line).reread = .code := by split <;> rfl
    rw [hmode] at ih
    exact ((leads_blankChar c).text _).trans (congrArg (blankChar c ++ ·) ih)
  | case6 r ih => exact (leads_spaces.text _).trans (congrArg (' ' :: ' ' :: ·) ih)
  | case7 c r _ ih => exact ((leads_blankChar c).text _).trans (congrArg (blankChar c ++ ·) ih)
  | case8 c r ih => exact congrArg ('\\' :: c :: ·) ih
  | case9 c r hescape ih =>
    have hmode : (if c == '"' || c == '\n' then Mode.code else Mode.quoted).reread =
        if c == '"' || c == '\n' then .code else .quoted := by split <;> rfl
    rw [hmode] at ih
    show blankFrom .quoted (c :: _) = _
    rw [blankFrom, ih]
    -- A backslash stands at the end of the text.
    intro d r' hc hr
    cases r with
    | nil =>
      rw [blankFrom] at hr
      cases hr
    | cons e r => exact hescape e r hc rfl

/-- **Overwriting comments twice is overwriting them once.** -/
theorem blank_blank (t : Text) : blank (blank t) = blank t := blankFrom_blankFrom .code t

/-- **Overwriting comments keeps all bytes but those of the comments.**  The bytes that the scan
puts out are the form of a text, as many as there were.  A byte outside of comments or at the end
of a line is the same as before, and any other one is a space.  No comment is left. -/
theorem blank_exact (t : Text) :
    blankBytes .code (bytes t) = bytes (blank t) ∧
      String.fromUTF8? (blankBytes .code (bytes t)).toByteArray = some (String.ofList (blank t)) ∧
      (blankBytes .code (bytes t)).length = (bytes t).length ∧
      (∀ n, (bytes (blank t))[n]? = ((bytes t)[n]?).map fun b =>
        if inside t n && !(b == 10 || b == 13) then 32 else b) ∧
      blank (blank t) = blank t := by
  have hbytes : blankBytes .code (bytes t) = bytes (blank t) := blankBytes_bytes .code t
  refine ⟨hbytes, ?_, ?_, fun n => ?_, blank_blank t⟩
  · rw [hbytes]
    exact dif_pos ByteArray.isValidUTF8_utf8Encode
  · rw [hbytes, Text.length_bytes, Text.length_bytes]
    exact size_blankFrom .code t
  · rw [getElem?_bytes_blank]
    congr 1
    funext b
    cases hinside : inside t n with
    | false => rfl
    | true =>
      rw [overwrite, if_pos rfl, blankByte]
      cases b == 10 || b == 13 <;> rfl

/-- A slash does not close the comment that it opens, and a literal hides what looks like one. -/
example : blank "/*/é\n*/\"//\"//é\r\n/*".toList =
    "     \n  \"//\"    \r\n  ".toList := by decide

end Comment

end PixelWrap
