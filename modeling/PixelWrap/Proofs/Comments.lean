import Mathlib.Data.List.Forall2
import PixelWrap.Proofs.Standalone

/-!
# Comments have no influence

Directives, macros and tokens are read from the text without comments, but a file is kept
as it was loaded.  What was loaded is looked at again for the lines and columns of offsets,
and for the texts that declarations keep as they are written.  Lines and columns come out
the same without the comments, so two sources that differ in their comments alone lead to
the same messages and to declarations that differ in the texts they keep alone.

Two runs are compared step by step, and two readings of the same tokens parser by parser:
a relation on the results goes through each of the ways in which steps are put together.

## Main definitions

* `Lockstep`: two computations fail in the same way or give related results.
* `SourceFile.Matches`, `Preprocessed.State.Matches`, `Preprocessed.Matches`: the same but for
  the comments in files.
* `Decl.Matches`: the same but for the texts that are kept as written.

## Main results

* `SourceFile.location_code`: the comments of a file do not count for its locations.
* `Preprocessed.State.Matches.step`, `Preprocessed.State.Matches.runItems`: runs of files that
  match give states that match.
* `Decl.Parser.Matches.bind`, `many`, `orElse`: parsers that match put together.
* `generate_of_blank_eq`: **sources that differ in comments give shaders of the same names,
  or the same error.**
-/

namespace PixelWrap

/-! ### Lines -/

theorem lineStarts_cons_append (offset : Nat) (c : Char) (t : Text) :
    lineStarts offset (c :: t) =
      (if c = '\n' then [offset + c.utf8Size] else []) ++ lineStarts (offset + c.utf8Size) t := by
  rw [lineStarts]
  by_cases hc : c = '\n'
  · subst hc
    rfl
  · simp [hc]

theorem lineStarts_replicate_append (offset n : Nat) (t : Text) :
    lineStarts offset (List.replicate n ' ' ++ t) = lineStarts (offset + n) t := by
  induction n generalizing offset with
  | zero => rfl
  | succ n ih =>
    rw [List.replicate_succ, List.cons_append, lineStarts, if_neg (by decide), ih]
    show lineStarts (offset + 1 + n) t = _
    rw [Nat.add_right_comm, Nat.add_assoc]

/-- A character of a comment ends a line just if what stands in its place does. -/
theorem lineStarts_blankChar_append (offset : Nat) (c : Char) (t : Text) :
    lineStarts offset (Comment.blankChar c ++ t) =
      (if c = '\n' then [offset + c.utf8Size] else []) ++ lineStarts (offset + c.utf8Size) t := by
  rw [Comment.blankChar]
  split
  · exact lineStarts_cons_append offset c t
  · next hc =>
    have hc' : c ≠ '\n' := by
      rintro rfl
      exact hc rfl
    rw [lineStarts_replicate_append, if_neg hc', List.nil_append]

/-- Blanking keeps the lines of a text where they are. -/
theorem lineStarts_blankFrom (m : Comment.Mode) (offset : Nat) (t : Text) :
    lineStarts offset (Comment.blankFrom m t) = lineStarts offset t := by
  fun_induction Comment.blankFrom m t generalizing offset with
  | case1 => rfl
  | case2 r ih => simp only [lineStarts_cons_append, ih]; rfl
  | case3 r ih => simp only [lineStarts_cons_append, ih]; rfl
  | case4 c r _ _ ih => simp only [lineStarts_cons_append, ih]
  | case5 c r ih => simp only [lineStarts_cons_append, lineStarts_blankChar_append, ih]
  | case6 r ih => simp only [lineStarts_cons_append, ih]; rfl
  | case7 c r _ ih => simp only [lineStarts_cons_append, lineStarts_blankChar_append, ih]
  | case8 c r ih => simp only [lineStarts_cons_append, ih]
  | case9 c r _ ih => simp only [lineStarts_cons_append, ih]

/-- **The comments of a file do not count for its locations.** -/
theorem SourceFile.location_code (f : SourceFile) (offset : Nat) :
    (⟨f.name, f.code⟩ : SourceFile).location offset = f.location offset := by
  simp only [SourceFile.location, SourceFile.size_code]
  rw [SourceFile.code, Comment.blank, lineStarts_blankFrom]

/-- The files have the same name and the same text but for comments. -/
structure SourceFile.Matches (f f' : SourceFile) : Prop where
  name : f.name = f'.name
  code : f.code = f'.code

theorem SourceFile.Matches.refl (f : SourceFile) : f.Matches f := ⟨rfl, rfl⟩

theorem SourceFile.Matches.location_eq {f f' : SourceFile} (h : f.Matches f') (offset : Nat) :
    f.location offset = f'.location offset := by
  rw [← location_code f, ← location_code f', h.name, h.code]

/-! ### Two computations -/

/-- The computations fail in the same way, or both give a result and the results are
related. -/
inductive Lockstep {ε α β : Type} (R : α → β → Prop) : Except ε α → Except ε β → Prop
  | ok {a : α} {b : β} : R a b → Lockstep R (.ok a) (.ok b)
  | error (e : ε) : Lockstep R (.error e) (.error e)

section Lockstep

variable {ε ε' α α' β β' : Type} {R : α → β → Prop} {S : α' → β' → Prop}

theorem Lockstep.bind {x : Except ε α} {y : Except ε β} {f : α → Except ε α'}
    {g : β → Except ε β'} (h : Lockstep R x y)
    (hf : ∀ a b, R a b → Lockstep S (f a) (g b)) : Lockstep S (x >>= f) (y >>= g) := by
  cases h with
  | ok hab => exact hf _ _ hab
  | error e => exact .error e

theorem Lockstep.exists_or {x : Except ε α} {y : Except ε β} (h : Lockstep R x y) :
    (∃ a b, x = .ok a ∧ y = .ok b ∧ R a b) ∨ ∃ e, x = .error e ∧ y = .error e := by
  cases h with
  | ok hab => exact .inl ⟨_, _, rfl, rfl, hab⟩
  | error e => exact .inr ⟨e, rfl, rfl⟩

theorem Lockstep.map {x : Except ε α} {y : Except ε β} {f : α → α'} {g : β → β'}
    (h : Lockstep R x y) (hf : ∀ a b, R a b → S (f a) (g b)) :
    Lockstep S (x.map f) (y.map g) := by
  cases h with
  | ok hab => exact .ok (hf _ _ hab)
  | error e => exact .error e

end Lockstep

/-! ### Runs of the preprocessor -/

namespace Preprocessed

variable {load : String → Option Text} {depth : Nat} {e e' : Entry} {s s' : State}

/-- The files have the same number and match. -/
structure Entry.Matches (e e' : Entry) : Prop where
  index : e.index = e'.index
  file : e.file.Matches e'.file

/-- The states are the same, but for the comments in the files that have been read. -/
structure State.Matches (s s' : State) : Prop where
  files : List.Forall₂ SourceFile.Matches s.files s'.files
  macros : s.macros = s'.macros
  groups : s.groups = s'.groups
  output : s.output = s'.output
  notices : s.notices = s'.notices

namespace State.Matches

theorem fail (h : s.Matches s') (he : e.Matches e') (offset : Nat) (reason : Reason) :
    Lockstep State.Matches (s.fail e offset reason) (s'.fail e' offset reason) := by
  rw [State.fail, State.fail, he.file.location_eq, h.notices]
  exact .error _

theorem notify (h : s.Matches s') (he : e.Matches e') (level : Level) (offset : Nat)
    (message : String) :
    (s.notify level e offset message).Matches (s'.notify level e' offset message) := by
  refine ⟨h.files, h.macros, h.groups, h.output, ?_⟩
  show s.notices ++ _ = s'.notices ++ _
  rw [he.file.location_eq, h.notices]

theorem emit (h : s.Matches s') (chunks : List Chunk) :
    (s.emit chunks).Matches (s'.emit chunks) := by
  refine ⟨h.files, h.macros, h.groups, ?_, h.notices⟩
  show chunks.foldl Output.push s.output = chunks.foldl Output.push s'.output
  rw [h.output]

theorem withMacros (h : s.Matches s') (macros : Macro.Table) :
    State.Matches { s with macros := macros } { s' with macros := macros } :=
  ⟨h.files, rfl, h.groups, h.output, h.notices⟩

theorem withGroups (h : s.Matches s') (groups : Groups) :
    State.Matches { s with groups := groups } { s' with groups := groups } :=
  ⟨h.files, h.macros, rfl, h.output, h.notices⟩

theorem enter (h : s.Matches s') (he : e.Matches e') : (s.enter e).Matches (s'.enter e') :=
  ⟨List.rel_append h.files (.cons he.file .nil), h.macros, h.groups, h.output, h.notices⟩

/-! ### One item -/

/-- Files that match are run in lockstep. -/
def OfDescend (descend : Descend) : Prop :=
  ∀ run ∈ descend, ∀ {e e' : Entry} {s s' : State}, e.Matches e' → s.Matches s' →
    Lockstep State.Matches (run e s) (run e' s')

section Step

variable {descend : Descend}

theorem storeRegion (h : s.Matches s') (he : e.Matches e') (offset : Nat) (text : Text) :
    Lockstep State.Matches (Preprocessed.storeRegion e offset text s)
      (Preprocessed.storeRegion e' offset text s') := by
  rw [Preprocessed.storeRegion, Preprocessed.storeRegion, h.macros]
  cases s'.macros.substitute text with
  | error f => exact h.fail he _ _
  | ok pieces =>
    rw [he.index]
    exact .ok (h.emit _)

theorem includeFile (h : s.Matches s') (he : e.Matches e') (hd : OfDescend descend) (offset : Nat)
    (operands : Text) :
    Lockstep State.Matches (Preprocessed.includeFile load descend e offset operands s)
      (Preprocessed.includeFile load descend e' offset operands s') := by
  unfold Preprocessed.includeFile
  cases Directive.includeName? operands with
  | none => exact h.fail he _ _
  | some name =>
    cases descend with
    | none => exact h.fail he _ _
    | some run =>
      dsimp only
      cases load name with
      | none => exact .ok (h.notify he _ _ _)
      | some text =>
        -- The file that is included is the same one, and so is its number.
        have hentry : Entry.Matches ⟨s.files.length, ⟨some name, text⟩⟩
            ⟨s'.files.length, ⟨some name, text⟩⟩ := ⟨h.files.length_eq, .refl _⟩
        refine Lockstep.bind (hd run rfl hentry (h.enter hentry)) ?_
        intro s₁ s₁' hs
        rw [he.index]
        exact .ok (hs.emit _)

theorem defineMacro (h : s.Matches s') (he : e.Matches e') (offset : Nat) (operands : Text) :
    Lockstep State.Matches (Preprocessed.defineMacro e offset operands s)
      (Preprocessed.defineMacro e' offset operands s') := by
  unfold Preprocessed.defineMacro
  cases Directive.definition? operands with
  | none => exact h.fail he _ _
  | some m =>
    refine .ok ?_
    rw [h.macros]
    by_cases hm : s'.macros.isDefined m.name = true
    · have hn := h.notify he .debug offset ("redefinition of macro " ++ m.name)
      simp only [if_pos hm, hn.macros]
      exact hn.withMacros _
    · simp only [if_neg hm, h.macros]
      exact h.withMacros _

theorem perform (h : s.Matches s') (he : e.Matches e') (hd : OfDescend descend) (offset : Nat)
    (d : Directive) :
    Lockstep State.Matches (Preprocessed.perform load descend e offset s d)
      (Preprocessed.perform load descend e' offset s' d) := by
  cases d with
  | includeFile operands => exact h.includeFile he hd offset operands
  | define operands => exact h.defineMacro he offset operands
  | undefine name =>
    simp only [Preprocessed.perform, h.macros]
    split
    · exact .ok (h.withMacros _)
    · exact h.fail he _ _
  | unknown name => exact h.fail he _ _
  | message kind text => exact .ok (h.notify he _ _ _)
  | _ => exact .ok h

/-- **An item does the same in states that match.** -/
theorem step (h : s.Matches s') (he : e.Matches e') (hd : OfDescend descend) (i : Item) :
    Lockstep State.Matches (Preprocessed.step load descend e s i)
      (Preprocessed.step load descend e' s' i) := by
  cases i with
  | region offset text =>
    rw [Preprocessed.step, Preprocessed.step, h.groups]
    split
    · exact h.storeRegion he offset text
    · exact .ok h
  | directive offset command =>
    rw [Preprocessed.step, Preprocessed.step]
    simp only [h.macros, h.groups]
    cases regroup s'.macros s'.groups command (Directive.ofCommand command) with
    | error reason => exact h.fail he _ _
    | ok gs =>
      have hgs := h.withGroups gs
      rw [h.macros] at hgs
      simp only
      split
      · exact hgs.perform he hd offset _
      · exact .ok hgs

end Step

/-! ### Whole runs -/

theorem runItems_of_descend (h : s.Matches s') (he : e.Matches e')
    (hd : OfDescend (descend load depth)) (is : List Item) :
    Lockstep State.Matches (Preprocessed.runItems load depth e s is)
      (Preprocessed.runItems load depth e' s' is) := by
  induction is generalizing s s' with
  | nil => exact .ok h
  | cons i is ih =>
    rw [runItems_cons, runItems_cons]
    exact Lockstep.bind (h.step he hd i) fun s s' hs => ih hs

theorem ofDescend (load : String → Option Text) (depth : Nat) : OfDescend (descend load depth) := by
  induction depth with
  | zero =>
    intro run hrun
    cases hrun
  | succ below ih =>
    intro run hrun e e' s s' he hs
    cases hrun
    rw [runFile_eq, runFile_eq, he.file.code]
    exact hs.runItems_of_descend he ih _

/-- **Runs over the same items from states that match end in states that match.** -/
theorem runItems (h : s.Matches s') (he : e.Matches e') (is : List Item) :
    Lockstep State.Matches (Preprocessed.runItems load depth e s is)
      (Preprocessed.runItems load depth e' s' is) :=
  h.runItems_of_descend he (ofDescend load depth) is

end State.Matches

/-- **Main files that differ in comments alone are run in lockstep.** -/
theorem matches_runMain (load : String → Option Text) (name : Option String) {t t' : Text}
    (h : Comment.blank t = Comment.blank t') :
    Lockstep State.Matches (runMain load name t) (runMain load name t') := by
  have hentry : (mainEntry name t).Matches (mainEntry name t') := ⟨rfl, rfl, h⟩
  have hstart : (startState name t).Matches (startState name t') :=
    ⟨.cons hentry.file .nil, rfl, rfl, rfl, rfl⟩
  have hsize : Text.size t = Text.size t' := by
    rw [← Comment.size_blankFrom .code t, ← Comment.size_blankFrom .code t']
    exact congrArg Text.size h
  rw [runMain_eq, runMain_eq, hentry.file.code, hsize]
  refine Lockstep.bind (hstart.runItems hentry _) ?_
  intro s s' hs
  rw [hs.groups]
  split
  · exact .ok hs
  · exact hs.fail hentry _ _

/-- The texts are the same, but for the comments in the files that they come from. -/
structure Matches (p p' : Preprocessed) : Prop where
  output : p.toOutput = p'.toOutput
  files : List.Forall₂ SourceFile.Matches p.files p'.files

theorem Matches.code_eq {p p' : Preprocessed} (h : p.Matches p') : p.code = p'.code :=
  congrArg Output.code h.output

/-- **The comments in files do not count for the locations of what is put out.** -/
theorem Matches.location?_eq {p p' : Preprocessed} (h : p.Matches p') (n : Nat) :
    p.location? n = p'.location? n := by
  rw [Preprocessed.location?, Preprocessed.location?, h.output]
  cases p'.place? n with
  | none => rfl
  | some place =>
    have hmap : p.files.map (·.location place.offset) = p'.files.map (·.location place.offset) := by
      rw [← List.forall₂_eq_eq_eq, List.forall₂_map_left_iff, List.forall₂_map_right_iff]
      exact h.files.imp fun f f' hf => hf.location_eq place.offset
    have hfile := congrArg (·[place.file]?) hmap
    simp only [List.getElem?_map, Option.map_eq_bind] at hfile
    exact hfile

/-- **Main files that differ in comments alone give the same notices, and texts that match
or the same error.** -/
theorem matches_run (load : String → Option Text) (name : Option String) {t t' : Text}
    (h : Comment.blank t = Comment.blank t') :
    Lockstep Matches (run load name t).result (run load name t').result ∧
      (run load name t).notices = (run load name t').notices := by
  rw [run, run]
  rcases (matches_runMain load name h).exists_or with ⟨s, s', hs, hs', hmatches⟩ | ⟨stop, hs, hs'⟩
  · rw [hs, hs']
    exact ⟨.ok ⟨hmatches.output, hmatches.files⟩, hmatches.notices⟩
  · rw [hs, hs']
    exact ⟨.error _, rfl⟩

end Preprocessed

/-- Tokens do not depend on the comments in files. -/
theorem Preprocessed.Matches.lex_eq {p p' : Preprocessed} (h : p.Matches p') :
    Token.lex p = Token.lex p' := by
  have herror : ∀ rest, Token.errorAt p rest = Token.errorAt p' rest := by
    intro rest
    rw [Token.errorAt, Token.errorAt, h.code_eq, h.location?_eq]
  rw [Token.lex, Token.lex, h.code_eq]
  cases Token.tokens p'.code with
  | ok ts => rfl
  | error rest => exact congrArg _ (herror rest)

/-! ### Declarations -/

/-- The types are the same but for their texts. -/
structure TypeName.Matches (t t' : TypeName) : Prop where
  isConst : t.isConst = t'.isConst

/-- The parameters are the same but for the texts that are kept. -/
structure Param.Matches (p p' : Param) : Prop where
  name : p.name = p'.name
  modifiers : p.modifiers = p'.modifiers
  type : p.type.Matches p'.type
  dims : p.dims.length = p'.dims.length
  semantic : p.semantic = p'.semantic
  defaultValue : p.defaultValue.isSome = p'.defaultValue.isSome

/-- The signatures are the same but for the texts that are kept. -/
structure Signature.Matches (s s' : Signature) : Prop where
  name : s.name = s'.name
  location : s.location = s'.location
  returnType : s.returnType.Matches s'.returnType
  params : List.Forall₂ Param.Matches s.params s'.params
  semantic : s.semantic = s'.semantic
  attributes : s.attributes.length = s'.attributes.length

/-- The functions are the same but for the texts that are kept. -/
structure Function.Matches (f f' : Function) : Prop where
  signature : f.signature.Matches f'.signature
  span : f.span = f'.span

namespace Decl

/-- The declarations are of the same kind and the same but for the texts that are kept. -/
inductive Matches : Decl → Decl → Prop
  | struct (name : String) : Matches (.struct name) (.struct name)
  | buffer (name : String) : Matches (.buffer name) (.buffer name)
  | typedef (name : String) : Matches (.typedef name) (.typedef name)
  | global : Matches .global .global
  | function {f f' : Function} : f.Matches f' → Matches (.function f) (.function f')
  | prototype {s s' : Signature} : s.Matches s' → Matches (.prototype s) (.prototype s')
  | empty : Matches .empty .empty

theorem Matches.refl (d : Decl) : d.Matches d := by
  have hsignature : ∀ s : Signature, s.Matches s := fun s =>
    ⟨rfl, rfl, ⟨rfl⟩, List.forall₂_same.mpr fun p _ => ⟨rfl, rfl, ⟨rfl⟩, rfl, rfl, rfl⟩, rfl, rfl⟩
  cases d with
  | struct name => exact .struct name
  | buffer name => exact .buffer name
  | typedef name => exact .typedef name
  | global => exact .global
  | function f => exact .function ⟨hsignature _, rfl⟩
  | prototype s => exact .prototype (hsignature s)
  | empty => exact .empty

namespace Parser

variable {α α' β β' : Type} {R : α → β → Prop} {S : α' → β' → Prop}

/-- From the same tokens the parsers fail in the same way, or read the same tokens and give
results that are related. -/
def Matches (R : α → β → Prop) (p : Parser α) (q : Parser β) : Prop :=
  ∀ ts, Lockstep (fun x y => R x.1 y.1 ∧ x.2 = y.2) (p ts) (q ts)

theorem Matches.refl (p : Parser α) : Matches Eq p p := by
  intro ts
  cases p ts with
  | ok x => exact .ok ⟨rfl, rfl⟩
  | error e => exact .error e

theorem Matches.pure {a : α} {b : β} (h : R a b) : Matches R (pure a) (pure b) :=
  fun _ => .ok ⟨h, rfl⟩

theorem Matches.bind {p : Parser α} {q : Parser β} {f : α → Parser α'} {g : β → Parser β'}
    (h : Matches R p q) (hf : ∀ a b, R a b → Matches S (f a) (g b)) :
    Matches S (p >>= f) (q >>= g) := by
  intro ts
  refine Lockstep.bind (h ts) ?_
  rintro ⟨a, r⟩ ⟨b, _⟩ ⟨hab, rfl⟩
  exact hf a b hab r

/-- The two parsers start in the same way. -/
theorem Matches.after (p : Parser α) {f : α → Parser α'} {g : α → Parser β'}
    (h : ∀ a, Matches S (f a) (g a)) : Matches S (p >>= f) (p >>= g) :=
  (Matches.refl p).bind fun a _ hab => hab ▸ h a

theorem Matches.optional {p : Parser α} {q : Parser β} (h : Matches R p q) :
    Matches (Option.Rel R) (optional p) (optional q) := by
  intro ts
  rw [Parser.optional, Parser.optional]
  rcases (h ts).exists_or with ⟨x, y, hx, hy, hab, hr⟩ | ⟨e, hx, hy⟩
  · rw [hx, hy]
    exact .ok ⟨.some hab, hr⟩
  · rw [hx, hy]
    exact .ok ⟨.none, rfl⟩

theorem Matches.many {p : Parser α} {q : Parser β} (h : Matches R p q) :
    Matches (List.Forall₂ R) (many p) (many q) := by
  intro ts
  induction hn : ts.length using Nat.strongRecOn generalizing ts with
  | ind n ih =>
    rw [Parser.many, Parser.many]
    rcases (h ts).exists_or with ⟨⟨a, r⟩, ⟨b, _⟩, hx, hy, hab, ⟨⟩⟩ | ⟨e, hx, hy⟩
    · rw [hx, hy]
      dsimp only
      split
      · next hlt =>
        refine (ih r.length (hn ▸ hlt) r rfl).map ?_
        rintro ⟨as, s⟩ ⟨bs, _⟩ ⟨hs, rfl⟩
        exact ⟨.cons hab hs, rfl⟩
      · exact .ok ⟨.nil, rfl⟩
    · rw [hx, hy]
      exact .ok ⟨.nil, rfl⟩

theorem Matches.sepBy (sep : Parser Unit) {p : Parser α} {q : Parser β} (h : Matches R p q) :
    Matches (List.Forall₂ R) (sepBy sep p) (sepBy sep q) := by
  refine h.optional.bind ?_
  intro a b hab
  cases hab with
  | none => exact .pure .nil
  | some hab =>
    refine (Matches.after sep fun _ => h).many.bind ?_
    intro as bs hs
    exact .pure (.cons hab hs)

theorem Matches.orElse {p p' : Parser α} {q q' : Parser β} (h : Matches R p q)
    (h' : Matches R p' q') : Matches R (orElse p p') (orElse q q') := by
  intro ts
  rw [Parser.orElse, Parser.orElse]
  rcases (h ts).exists_or with ⟨x, y, hx, hy, hxy⟩ | ⟨e, hx, hy⟩
  · rw [hx, hy]
    exact .ok hxy
  · rw [hx, hy]
    rcases (h' ts).exists_or with ⟨x, y, hx, hy, hxy⟩ | ⟨f, hx, hy⟩
    · rw [hx, hy]
      exact .ok hxy
    · rw [hx, hy]
      exact .error _

end Parser

namespace Grammar

open PixelWrap.Decl.Parser

variable {p p' : Preprocessed}

theorem matches_typeName (p p' : Preprocessed) :
    Parser.Matches TypeName.Matches (typeName p) (typeName p') :=
  .after _ fun _ => .after _ fun _ => .after _ fun _ => .after _ fun _ => .after _ fun _ =>
    .after _ fun _ => .after _ fun _ => .pure ⟨rfl⟩

theorem matches_param (p p' : Preprocessed) :
    Parser.Matches Param.Matches (param p) (param p') := by
  refine .after _ fun _ => .after _ fun _ => (matches_typeName p p').bind fun t t' ht => ?_
  refine .after _ fun _ => .after _ fun dims => .after _ fun _ => .after _ fun _ =>
    .after _ fun value => .pure ?_
  exact {
    name := rfl
    modifiers := rfl
    type := ht
    dims := by simp only [List.length_map]
    semantic := rfl
    defaultValue := by simp only [Option.isSome_map] }

theorem matches_params (p p' : Preprocessed) :
    Parser.Matches (List.Forall₂ Param.Matches) (params p) (params p') := by
  refine .after _ fun _ => ?_
  intro ts
  have hvoid : Parser.Matches (List.Forall₂ Param.Matches) voidParams voidParams :=
    .after _ fun _ => .after _ fun _ => .pure .nil
  have hsome : Parser.Matches (List.Forall₂ Param.Matches) (someParams p) (someParams p') :=
    (Matches.sepBy _ (matches_param p p')).bind fun _ _ hps => .after _ fun _ => .pure hps
  dsimp only
  rcases (hvoid ts).exists_or with ⟨x, y, hx, hy, hps, -⟩ | ⟨e, hx, -⟩
  · rw [hx] at hy ⊢
    cases hy
    exact .ok ⟨hps, rfl⟩
  · rw [hx]
    exact hsome ts

theorem matches_signature (h : p.Matches p') :
    Parser.Matches Signature.Matches (signature p) (signature p') := by
  refine .after _ fun attributes => .after _ fun _ => (matches_typeName p p').bind fun t t' ht => ?_
  refine .after _ fun n => (matches_params p p').bind fun ps ps' hps => .after _ fun _ => .pure ?_
  exact {
    name := rfl
    location := congrArg (Option.getD · Location.nowhere) (h.location?_eq n.2.start)
    returnType := ht
    params := hps
    semantic := rfl
    attributes := by simp only [List.length_map] }

theorem matches_function (h : p.Matches p') :
    Parser.Matches Decl.Matches (function p) (function p') := by
  refine (matches_signature h).bind fun s s' hs => Matches.orElse ?_ ?_
  · exact .after _ fun _ => .pure (.function ⟨hs, rfl⟩)
  · exact .after _ fun _ => .pure (.prototype hs)

/-- **A declaration is read in the same way, whatever the comments in files.** -/
theorem matches_declaration (h : p.Matches p') :
    Parser.Matches Decl.Matches (declaration p) (declaration p') := by
  have hself : ∀ q : Parser Decl, Parser.Matches Decl.Matches q q := by
    intro q ts
    cases q ts with
    | ok x => exact .ok ⟨.refl _, rfl⟩
    | error e => exact .error e
  exact (hself struct).orElse <| (hself buffer).orElse <| (hself typedef).orElse <|
    (matches_function h).orElse <| (hself global).orElse (hself empty)

theorem matches_declarations (h : p.Matches p') (ts : List Lexeme) :
    Lockstep (List.Forall₂ Decl.Matches) (declarations p ts) (declarations p' ts) := by
  induction hn : ts.length using Nat.strongRecOn generalizing ts with
  | ind n ih =>
    have hd := matches_declaration h ts
    rw [declarations, declarations]
    split
    · exact .ok .nil
    · split
      · next d r hd₁ =>
        rw [hd₁] at hd
        split
        · next d' r' hd₂ =>
          rw [hd₂] at hd
          cases hd with
          | ok hdd =>
            obtain ⟨hdd, rfl⟩ := hdd
            have hlt : r.length < n := hn ▸ (shrinks_declaration p _ _ _ hd₁).2
            exact (ih r.length hlt r rfl).map fun _ _ hds => .cons hdd hds
        · next e hd₂ =>
          rw [hd₂] at hd
          cases hd
      · next e hd₁ =>
        rw [hd₁] at hd
        split
        · next d' r' hd₂ =>
          rw [hd₂] at hd
          cases hd
        · next e' hd₂ =>
          rw [hd₂] at hd
          cases hd with
          | error => exact .error _

end Grammar

end Decl

theorem matches_outline {p p' : Preprocessed} (h : p.Matches p') :
    Lockstep (List.Forall₂ Decl.Matches) (outline p) (outline p') := by
  rw [outline, outline, h.lex_eq]
  cases Token.lex p' with
  | error e => exact .error _
  | ok ts =>
    dsimp only
    rw [Decl.parse, Decl.parse]
    rcases (Decl.Grammar.matches_declarations h ts).exists_or with
      ⟨ds, ds', hds, hds', hmatches⟩ | ⟨f, hds, hds'⟩
    · rw [hds, hds']
      exact .ok hmatches
    · rw [hds, hds']
      have hlocation : (fun t : Lexeme => p.location? t.span.start) =
          fun t => p'.location? t.span.start := funext fun t => h.location?_eq _
      simp only [Except.mapError, hlocation]
      exact .error _

/-! ### Shaders -/

theorem matches_functions {ds ds' : List Decl} (h : List.Forall₂ Decl.Matches ds ds') :
    List.Forall₂ Function.Matches (functions ds) (functions ds') := by
  induction h with
  | nil => exact .nil
  | cons hd _ ih =>
    cases hd with
    | function hf => exact .cons hf ih
    | _ => exact ih

/-- Whether a function is skipped depends on the number of its parameters alone, and so the
shaders have the same names. -/
theorem Function.Matches.render (o : Options) {f f' : Function} (h : f.Matches f') :
    Lockstep (fun s s' => s.name = s'.name) (Shader.render o f) (Shader.render o f') := by
  have hlength := h.signature.params.length_eq
  rw [Shader.render, Shader.render, hlength, h.signature.name, h.signature.location]
  split
  · exact .error _
  · exact .ok rfl

section Shaders

variable {fs fs' : List Function}

/-- What is taken from the shaders of functions is the same if it depends on their names
alone. -/
theorem filterMap_render_eq {β : Type} (o : Options) {g : Except Skipped Shader → Option β}
    (hg : ∀ x x', Lockstep (fun s s' => s.name = s'.name) x x' → g x = g x')
    (h : List.Forall₂ Function.Matches fs fs') :
    fs.filterMap (fun f => g (Shader.render o f)) =
      fs'.filterMap (fun f => g (Shader.render o f)) := by
  induction h with
  | nil => rfl
  | cons hf _ ih => rw [List.filterMap_cons, List.filterMap_cons, hg _ _ (hf.render o), ih]

theorem map_name_ofFunctions (o : Options) (h : List.Forall₂ Function.Matches fs fs') :
    (Shaders.ofFunctions o fs).shaders.map Shader.name =
      (Shaders.ofFunctions o fs').shaders.map Shader.name := by
  simp only [Shaders.ofFunctions, List.map_filterMap]
  refine filterMap_render_eq o (g := fun x => (Shaders.shader? x).map Shader.name)
    (fun x x' hx => ?_) h
  cases hx with
  | ok hname => exact congrArg some hname
  | error e => rfl

theorem skipped_ofFunctions (o : Options) (h : List.Forall₂ Function.Matches fs fs') :
    (Shaders.ofFunctions o fs).skipped = (Shaders.ofFunctions o fs').skipped := by
  refine filterMap_render_eq o (fun x x' hx => ?_) h
  cases hx <;> rfl

theorem notices_eq (o : Options) (seen : List String) (h : List.Forall₂ Function.Matches fs fs') :
    Shaders.notices o seen fs = Shaders.notices o seen fs' := by
  induction h generalizing seen with
  | nil => rfl
  | cons hf _ ih =>
    rw [Shaders.notices, Shaders.notices]
    rcases (hf.render o).exists_or with ⟨s, s', hs, hs', hname⟩ | ⟨e, hs, hs'⟩
    · rw [hs, hs']
      simp only [hname, hf.signature.location, ih]
    · rw [hs, hs']
      simp only [ih]

end Shaders

/-- **Comments have no influence on what is generated.**  Sources that are the same but for
their comments give the same notices and fail with the same error at the same place, or
they give shaders of the same names in the same order and skip the same functions, and
their declarations differ in the texts that are kept as they are written alone. -/
theorem generate_of_blank_eq (load : String → Option Text) (o : Options) (name : String)
    {t t' : Text} (h : Comment.blank t = Comment.blank t') :
    (generate load o name t).notices = (generate load o name t').notices ∧
      ((∃ error, (generate load o name t).result = .error error ∧
          (generate load o name t').result = .error error) ∨
        ∃ shaders shaders', (generate load o name t).result = .ok shaders ∧
          (generate load o name t').result = .ok shaders' ∧
          shaders.shaders.map Shader.name = shaders'.shaders.map Shader.name ∧
          shaders.skipped = shaders'.skipped ∧
          ∃ p p' ds ds', (Preprocessed.run load (some name) t).result = .ok p ∧
            (Preprocessed.run load (some name) t').result = .ok p' ∧
            outline p = .ok ds ∧ outline p' = .ok ds' ∧ List.Forall₂ Decl.Matches ds ds') := by
  obtain ⟨hrun, hnotices⟩ := Preprocessed.matches_run load (some name) h
  simp only [generate, hnotices]
  rcases hrun.exists_or with ⟨p, p', hp, hp', hmatches⟩ | ⟨e, hp, hp'⟩
  · simp only [hp, hp']
    rcases (matches_outline hmatches).exists_or with ⟨ds, ds', hds, hds', hall⟩ | ⟨e, hds, hds'⟩
    · simp only [hds, hds']
      have hfs := matches_functions hall
      have hremark : Generate.remark name ds = Generate.remark name ds' := by
        rw [Generate.remark, Generate.remark, hall.length_eq, hfs.length_eq]
      refine ⟨by rw [hremark, notices_eq o [] hfs], .inr ⟨_, _, rfl, rfl, ?_, ?_, ?_⟩⟩
      · exact map_name_ofFunctions o hfs
      · exact skipped_ofFunctions o hfs
      · exact ⟨p, p', ds, ds', rfl, rfl, hds, hds', hall⟩
    · simp only [hds, hds']
      exact ⟨trivial, .inl ⟨e, rfl, rfl⟩⟩
  · simp only [hp, hp']
    exact ⟨trivial, .inl ⟨_, rfl, rfl⟩⟩

/-- A function with a comment in its body. -/
def remarkSource : Text := "float f() \x7b return 1; /* one */ \x7d\n".toList

/-- The function as it is read. -/
def remarkFunction : Function :=
  { signature := ⟨"f", ⟨some "f", 1, 7⟩, ⟨"float".toList, false⟩, [], none, []⟩
    body := "\x7b return 1; /* one */ \x7d".toList
    span := ⟨10, 33⟩ }

/-- The function with another comment in its body, which has a bracket and as many bytes,
but not as many characters. -/
def bracketSource : Text := "float f() \x7b return 1; /* é\x7d */ \x7d\n".toList

theorem decls?_remarkSource :
    decls? (fun _ => none) "f" remarkSource 12 = some [.function remarkFunction] := by
  cbv

/-- The bracket in the comment has no influence: the shaders have the same names. -/
theorem generate_of_blank_eq_bracket :
    ∃ shaders, (generate (fun _ => none) {} "f" bracketSource).result = .ok shaders ∧
      shaders.shaders.map Shader.name = ["f"] := by
  have hremark := generate_of_decls? 12 decls?_remarkSource {}
  have hblank : Comment.blank remarkSource = Comment.blank bracketSource := by decide
  rcases generate_of_blank_eq (fun _ => none) {} "f" hblank with
    ⟨-, ⟨error, herror, -⟩ | ⟨shaders, shaders', hs, hs', hnames, -⟩⟩
  · rw [hremark] at herror
    cases herror
  · rw [hremark] at hs
    cases hs
    exact ⟨shaders', hs', hnames ▸ rfl⟩

end PixelWrap
