import PixelWrap.Token.Basic

/-!
# Reading tokens

A parser reads some of the tokens from the front of a list, or fails with a reason
and the tokens at which it failed.  Where several parsers are tried and all fail,
the failure that got furthest counts.

## Main definitions

* `Decl.Reason`, `Decl.Fault`: why a parser fails.
* `Decl.Parser`: parsers.
* `Decl.Parser.token`, `Decl.Parser.name`: read one token.
* `Decl.Parser.optional`, `many`, `sepBy`, `orElse`: combine parsers.
* `Decl.Parser.balanced`, `Decl.Parser.scanUntil`: read over brackets.

## Main results

* `Decl.Parser.Keeps`, `Decl.Parser.Shrinks`: a parser leaves a suffix of its
  tokens, a proper one in the second case.  Both hold of combined parsers if they
  hold of their parts.
-/

namespace PixelWrap.Decl

/-- Why tokens are no declaration. -/
inductive Reason where
  /-- The tokens end too early. -/
  | unexpectedEndOfStream
  /-- The tokens make up something else. -/
  | failedToParse
  /-- Another token was expected. -/
  | wrongToken
  /-- A bracket is never closed. -/
  | unclosedBracket
  deriving DecidableEq, Repr

/-- What is wrong, in words. -/
def Reason.message : Reason → String
  | .unexpectedEndOfStream => "unexpected end of stream"
  | .failedToParse => "failed to parse declaration"
  | .wrongToken => "unexpected token"
  | .unclosedBracket => "bracket is never closed"

/-- A failure: its reason, and the tokens from the place of the failure on. -/
structure Fault where
  /-- What is wrong. -/
  reason : Reason
  /-- The tokens left at that place. -/
  rest : List Lexeme
  deriving DecidableEq, Repr

/-- The failure that got further, the first one if both got equally far. -/
def Fault.furthest (e f : Fault) : Fault := if f.rest.length < e.rest.length then f else e

/-- Reads tokens from the front of a list. -/
abbrev Parser := StateT (List Lexeme) (Except Fault)

/-- Whether no token but the end of the text is left. -/
def atEnd : List Lexeme → Bool
  | [] => true
  | t :: _ => t.token == .eof

/-- The last of the tokens. -/
def lastOf (ts : List Lexeme) : List Lexeme := ts.drop (ts.length - 1)

namespace Parser

variable {α β : Type}

/-! ### One token -/

/-- The failure of a parser that expects another token. -/
def unexpected (ts : List Lexeme) : Fault :=
  ⟨if atEnd ts then .unexpectedEndOfStream else .wrongToken, ts⟩

/-- Reads a token of which `f` gives a value. -/
def accept (f : Token → Option α) : Parser (α × Span) := fun ts =>
  match ts with
  | [] => .error (unexpected [])
  | t :: r =>
    match f t.token with
    | some a => .ok ((a, t.span), r)
    | none => .error (unexpected (t :: r))

/-- Reads the given token. -/
def token (k : Token) : Parser Unit := do
  let _ ← accept fun t => if t = k then some () else none

/-- Reads a symbol. -/
def symbol (s : Symbol) : Parser Unit := token (.symbol s)

/-- Reads a reserved word. -/
def keyword (k : Keyword) : Parser Unit := token (.keyword k)

/-- Reads a name. -/
def name : Parser (String × Span) := accept Token.name?

/-! ### Combined parsers -/

/-- Reads what `p` reads, or nothing where `p` fails. -/
def optional (p : Parser α) : Parser (Option α) := fun ts =>
  match p ts with
  | .ok (a, r) => .ok (some a, r)
  | .error _ => .ok (none, ts)

/-- Reads what `p` reads, as often as it reads something. -/
def many (p : Parser α) (ts : List Lexeme) : Except Fault (List α × List Lexeme) :=
  match p ts with
  | .error _ => .ok ([], ts)
  | .ok (a, r) =>
    if r.length < ts.length then (many p r).map fun (as, r) => (a :: as, r) else .ok ([], ts)
termination_by ts.length

/-- Reads what `p` reads, any number of times with separators in between.  A
separator that nothing follows is not read. -/
def sepBy (sep : Parser Unit) (p : Parser α) : Parser (List α) := do
  match ← optional p with
  | none => return []
  | some a => return a :: (← many (do sep; p))

/-- Reads what `p` reads, or what `q` reads where `p` fails. -/
def orElse (p q : Parser α) : Parser α := fun ts =>
  match p ts with
  | .ok x => .ok x
  | .error e =>
    match q ts with
    | .ok x => .ok x
    | .error f => .error (e.furthest f)

/-- Reads nothing and fails as if it had read nothing. -/
def failAt (reason : Reason) (ts : List Lexeme) : Parser α := fun _ => .error ⟨reason, ts⟩

/-! ### Brackets -/

/-- Splits the tokens after an opening bracket at the bracket that closes it, where
`depth` more brackets are open. -/
def closing? (opening close : Symbol) (depth : Nat) : List Lexeme → Option (Span × List Lexeme)
  | [] => none
  | t :: r =>
    if t.token = .symbol opening then closing? opening close (depth + 1) r
    else if t.token = .symbol close then
      match depth with
      | 0 => some (t.span, r)
      | d + 1 => closing? opening close d r
    else if t.token = .eof then none
    else closing? opening close depth r

/-- Reads an opening bracket and everything up to the bracket that closes it. -/
def balanced (opening close : Symbol) : Parser Span := fun ts =>
  match ts with
  | [] => .error (unexpected [])
  | t :: r =>
    if t.token = .symbol opening then
      match closing? opening close 0 r with
      | some (last, rest) => .ok (t.span.join last, rest)
      | none => .error ⟨.unclosedBracket, lastOf (t :: r)⟩
    else .error (unexpected (t :: r))

/-- Whether a token is an opening parenthesis, bracket or brace. -/
def opens : Token → Bool
  | .symbol .leftParen | .symbol .leftSquare | .symbol .leftBrace => true
  | _ => false

/-- Whether a token is a closing parenthesis, bracket or brace. -/
def closes : Token → Bool
  | .symbol .rightParen | .symbol .rightSquare | .symbol .rightBrace => true
  | _ => false

/-- Splits tokens in front of the first one that `stops` holds of outside all
brackets.  Fails at a bracket that closes none of these, with the tokens from there
on, or at the end of the tokens. -/
def splitUntil (stops : Token → Bool) (depth : Nat) :
    List Lexeme → Except (Option (List Lexeme)) (List Lexeme × List Lexeme)
  | [] => .error none
  | t :: r =>
    if depth = 0 ∧ stops t.token then .ok ([], t :: r)
    else if t.token = .eof then .error none
    else if opens t.token then (splitUntil stops (depth + 1) r).map fun (a, b) => (t :: a, b)
    else if closes t.token then
      match depth with
      | 0 => .error (some (t :: r))
      | d + 1 => (splitUntil stops d r).map fun (a, b) => (t :: a, b)
    else (splitUntil stops depth r).map fun (a, b) => (t :: a, b)

/-- Reads the tokens in front of the first one that `stops` holds of outside all
brackets. -/
def scanUntil (stops : Token → Bool) : Parser (List Lexeme) := fun ts =>
  match splitUntil stops 0 ts with
  | .ok x => .ok x
  | .error (some r) => .error ⟨.wrongToken, r⟩
  | .error none => .error ⟨.unexpectedEndOfStream, lastOf ts⟩

/-! ### What parsers leave -/

/-- Whatever the parser reads, it leaves a suffix of the tokens. -/
def Keeps (p : Parser α) : Prop :=
  ∀ ts a r, p ts = .ok (a, r) → r <:+ ts

/-- Whatever the parser reads, it leaves a proper suffix of the tokens. -/
def Shrinks (p : Parser α) : Prop :=
  ∀ ts a r, p ts = .ok (a, r) → r <:+ ts ∧ r.length < ts.length

theorem Shrinks.keeps {p : Parser α} (h : Shrinks p) : Keeps p := fun _ _ _ hp => (h _ _ _ hp).1

theorem bind_eq_ok {p : Parser α} {f : α → Parser β} {ts r : List Lexeme} {b : β} :
    (p >>= f) ts = .ok (b, r) ↔ ∃ a s, p ts = .ok (a, s) ∧ f a s = .ok (b, r) := by
  show (p ts >>= fun x => f x.1 x.2) = .ok (b, r) ↔ _
  cases h : p ts with
  | error e => simp [bind, Except.bind]
  | ok x =>
    obtain ⟨a, s⟩ := x
    constructor
    · exact fun h => ⟨a, s, rfl, h⟩
    · rintro ⟨_, _, ⟨⟩, h⟩
      exact h

theorem keeps_pure (a : α) : Keeps (pure a : Parser α) := by
  intro ts b r h
  cases h
  exact List.suffix_rfl

theorem Keeps.bind {p : Parser α} {f : α → Parser β} (hp : Keeps p) (hf : ∀ a, Keeps (f a)) :
    Keeps (p >>= f) := by
  intro ts b r h
  obtain ⟨a, s, h₁, h₂⟩ := bind_eq_ok.mp h
  exact (hf a _ _ _ h₂).trans (hp _ _ _ h₁)

theorem Shrinks.bind {p : Parser α} {f : α → Parser β} (hp : Shrinks p)
    (hf : ∀ a, Keeps (f a)) : Shrinks (p >>= f) := by
  intro ts b r h
  obtain ⟨a, s, h₁, h₂⟩ := bind_eq_ok.mp h
  have h₃ := hf a _ _ _ h₂
  exact ⟨h₃.trans (hp _ _ _ h₁).1, Nat.lt_of_le_of_lt h₃.length_le (hp _ _ _ h₁).2⟩

theorem Keeps.bind_shrinks {p : Parser α} {f : α → Parser β} (hp : Keeps p)
    (hf : ∀ a, Shrinks (f a)) : Shrinks (p >>= f) := by
  intro ts b r h
  obtain ⟨a, s, h₁, h₂⟩ := bind_eq_ok.mp h
  have h₃ := hp _ _ _ h₁
  exact ⟨(hf a _ _ _ h₂).1.trans h₃, Nat.lt_of_lt_of_le (hf a _ _ _ h₂).2 h₃.length_le⟩

theorem keeps_get : Keeps (get : Parser (List Lexeme)) := by
  intro ts a r h
  cases h
  exact List.suffix_rfl

theorem shrinks_failAt (reason : Reason) (ts : List Lexeme) :
    Shrinks (failAt reason ts : Parser α) := by
  intro _ _ _ h
  cases h

theorem shrinks_accept (f : Token → Option α) : Shrinks (accept f) := by
  intro ts a r h
  unfold accept at h
  split at h
  · cases h
  · split at h
    · cases h
      exact ⟨List.suffix_cons _ _, Nat.lt_succ_self _⟩
    · cases h

theorem shrinks_token (k : Token) : Shrinks (token k) :=
  (shrinks_accept _).bind fun _ => keeps_pure _

theorem shrinks_name : Shrinks name := shrinks_accept _

theorem Keeps.optional {p : Parser α} (hp : Keeps p) : Keeps (optional p) := by
  intro ts a r h
  unfold Parser.optional at h
  split at h
  · next ht => cases h; exact hp _ _ _ ht
  · cases h; exact List.suffix_rfl

theorem Keeps.many {p : Parser α} (hp : Keeps p) : Keeps (many p) := by
  intro ts a r h
  fun_induction Parser.many p ts generalizing a r with
  | case1 => cases h; exact List.suffix_rfl
  | case2 ts b s hs _ ih =>
    cases hm : Parser.many p s with
    | error e => rw [hm] at h; cases h
    | ok x =>
      rw [hm] at h
      cases h
      exact (ih _ _ hm).trans (hp _ _ _ hs)
  | case3 => cases h; exact List.suffix_rfl

theorem Keeps.sepBy {sep : Parser Unit} {p : Parser α} (hs : Keeps sep) (hp : Keeps p) :
    Keeps (sepBy sep p) := by
  refine hp.optional.bind fun a => ?_
  cases a with
  | none => exact keeps_pure _
  | some a => exact (hs.bind fun _ => hp).many.bind fun _ => keeps_pure _

theorem Shrinks.orElse {p q : Parser α} (hp : Shrinks p) (hq : Shrinks q) :
    Shrinks (orElse p q) := by
  intro ts a r h
  unfold Parser.orElse at h
  split at h
  · next ht => cases h; exact hp _ _ _ ht
  · split at h
    · next ht => cases h; exact hq _ _ _ ht
    · cases h

theorem closing?_suffix {opening close : Symbol} {depth : Nat} {ts r : List Lexeme} {s : Span}
    (h : closing? opening close depth ts = some (s, r)) : r <:+ ts := by
  fun_induction closing? opening close depth ts with
  | case1 => cases h
  | case2 depth t ts _ ih => exact (ih h).trans (List.suffix_cons _ _)
  | case3 => cases h; exact List.suffix_cons _ _
  | case4 t ts _ _ d ih => exact (ih h).trans (List.suffix_cons _ _)
  | case5 => cases h
  | case6 depth t ts _ _ _ ih => exact (ih h).trans (List.suffix_cons _ _)

theorem shrinks_balanced (opening close : Symbol) : Shrinks (balanced opening close) := by
  intro ts a r h
  unfold balanced at h
  split at h
  · cases h
  · split at h
    · split at h
      · next hc =>
        cases h
        have hs := closing?_suffix hc
        exact ⟨hs.trans (List.suffix_cons _ _), Nat.lt_succ_of_le hs.length_le⟩
      · cases h
    · cases h

/-- The tokens in front of the stop and the tokens from there on are all tokens. -/
theorem splitUntil_append {stops : Token → Bool} {depth : Nat} {ts a r : List Lexeme}
    (h : splitUntil stops depth ts = .ok (a, r)) : a ++ r = ts := by
  -- A step that is not the last puts one token in front of what the others read.
  have step : ∀ {x : Except (Option (List Lexeme)) (List Lexeme × List Lexeme)} {t s a r},
      (∀ a r, x = .ok (a, r) → a ++ r = s) →
      (x.map fun (a, b) => (t :: a, b)) = .ok (a, r) → a ++ r = t :: s := by
    intro x t s a r ih h
    cases x with
    | error e => cases h
    | ok y => cases h; simp [ih _ _ rfl]
  fun_induction splitUntil stops depth ts generalizing a r with
  | case1 => cases h
  | case2 => cases h; rfl
  | case3 => cases h
  | case4 depth t ts _ _ _ ih => exact step (fun _ _ => ih) h
  | case5 => cases h
  | case6 t ts _ _ _ d _ ih => exact step (fun _ _ => ih) h
  | case7 depth t ts _ _ _ _ ih => exact step (fun _ _ => ih) h

theorem keeps_scanUntil (stops : Token → Bool) : Keeps (scanUntil stops) := by
  intro ts a r h
  unfold scanUntil at h
  split at h
  · next ht => cases h; exact ⟨a, splitUntil_append ht⟩
  · cases h
  · cases h

end Parser

end PixelWrap.Decl
