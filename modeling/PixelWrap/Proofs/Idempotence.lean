import PixelWrap.Proofs.Passages
import PixelWrap.Proofs.Standalone
import PixelWrap.Proofs.Words

/-!
# Shaders of shaders

A shader is itself a source with one function.  If the source of the shader holds no
directives, the function that is read from the shader has the type, the parameters and the
body that were copied into it, and so its shader is the same one.

The text of the shader is described by its cuts, which are made of those of the parts of
the function and of cuts of fixed characters between them.  All of them are read one after
the other, and their tokens are those of a function.

## Main definitions

* `Token.Ready`: cuts are read in front of a text, and hold no directive.
* `Shader.cuts`: the cuts of a shader.
* `Shader.AreParts`, `Shader.MadeOf`: the cuts of the parts of a function, and a function
  that is made of them.

## Main results

* `Shader.copied_eq`: the cuts of a shader make up its text.
* `Shader.ready_cuts`: they are read one after the other.
* `exists_declaration_of_cuts`: they are read as a function that is made of the same parts.
* `exists_areParts`: the functions of a source without directives are made of such parts.
* `generate_idempotent`: **the shader of a shader is the shader itself.**
-/

namespace PixelWrap

open Comment (blank)
open Preprocessed (Shows)
open Token
open Decl (kinds IsType IsParam IsGroup)
open Decl.Grammar (sourceOf)

/-! ### Cuts of fixed characters -/

namespace Token

variable {cs : List Cut} {t g s : Text}

theorem hardHead_raw_cons {c : Cut} {x : Char} {r : Text} (h : c.gap ++ c.text = x :: r)
    (hx : isSoft x = false) : HardHead (raw (c :: cs) ++ t) := by
  intro y hy
  rw [raw_cons, ← List.append_assoc, h] at hy
  cases hy
  exact hx

/-- The cuts are read in front of a text, and no line of them holds a directive. -/
structure Ready (cs : List Cut) (t : Text) : Prop where
  standing : Standing cs t
  isQuiet : quiet true (blanked cs) = true

theorem quiet_of_isGap {start : Bool} (h : IsGap g) : quiet start (blank g) = true := by
  refine quiet_of_not_mem fun hmem => ?_
  cases h.blank '#' hmem

theorem Ready.cons {c : Cut} (hc : c.Stands (raw cs ++ t)) (hx : '#' ∉ c.text)
    (h : Ready cs t) : Ready (c :: cs) t := by
  refine ⟨⟨hc, h.standing⟩, ?_⟩
  rw [blanked_cons]
  exact quiet_append (quiet_of_isGap hc.isGap) (quiet_append (quiet_of_not_mem hx) h.isQuiet)

theorem Ready.symbol {k : Symbol} {x : Char} (hk : first? [x] = some (.symbol k, [x]))
    (hx : isSoft x = false ∧ x ≠ '/' ∧ x ≠ '"' ∧ x ≠ '=' ∧ x ≠ '!' ∧ x ≠ '#') (hg : IsGap g)
    (h : Ready cs t) : Ready (⟨g, .symbol k, [x]⟩ :: cs) t := by
  obtain ⟨hsoft, hslash, hquote, heq, hbang, hhash⟩ := hx
  refine h.cons (Cut.stands_of_first? hg hk ?_ ⟨?_, .inl ⟨x, List.mem_singleton_self x, hsoft⟩⟩) ?_
  · intro y hy
    cases List.mem_singleton.mp hy
    exact ⟨hslash, hquote⟩
  · rintro y ⟨⟩
    exact ⟨hslash, heq, hbang⟩
  · exact fun hmem => hhash (List.mem_singleton.mp hmem).symm

theorem Ready.word (hs : Text.isName s = true) (hg : IsGap g) (h : Ready cs t)
    (hh : HardHead (raw cs ++ t)) : Ready (⟨g, ofWord (String.ofList s), s⟩ :: cs) t := by
  have hne : ∀ {x y : Char}, x ∈ s → isNameChar y = false → x ≠ y := by
    rintro x y hx hy rfl
    rw [Text.isNameChar_of_isName hs x hx] at hy
    cases hy
  refine h.cons (Cut.stands_of_first? hg (first?_of_isName hs) ?_
    ⟨?_, .inr (hardHead_blank hh)⟩) fun hmem => hne hmem (by decide) rfl
  · exact fun x hx => ⟨hne hx (by decide), hne hx (by decide)⟩
  · intro x hx
    have hmem := List.mem_of_getLast? hx
    exact ⟨hne hmem (by decide), hne hmem (by decide), hne hmem (by decide)⟩

theorem Ready.regap {ds : List Cut} (hds : Movable ds) (hg : IsGap g) (h : Ready cs t)
    (hh : HardHead (raw cs ++ t)) : Ready (regap g ds ++ cs) t := by
  refine ⟨standing_append.mpr ⟨(hds.standing _ (hardHead_blank hh)).regap hg, h.standing⟩, ?_⟩
  have hblanked : blanked (Token.regap g ds) = blank g ++ blanked (Token.regap [] ds) := by
    cases ds with
    | nil => exact absurd rfl hds.ne_nil
    | cons d ds => rw [Token.regap, Token.regap, blanked_cons, blanked_cons]; rfl
  rw [blanked_append, hblanked, List.append_assoc]
  exact quiet_append (quiet_of_isGap hg) (quiet_append hds.isQuiet h.isQuiet)

end Token

/-! ### Semantics -/

theorem isName_positional (i : Nat) : Text.isName (positional i) = true := by
  have hdigits : ∀ c ∈ (toString i).toList, isNameChar c = true := by
    intro c hc
    have hdigit : c.isDigit = true := by
      refine Nat.isDigit_of_mem_toDigits (n := i) (b := 10) (by decide) (by decide) ?_
      rwa [← Nat.toList_repr]
    simp [isNameChar, Char.isAlphanum, hdigit]
  have hrest : ("OLOR".toList ++ (toString i).toList).dropWhile isNameChar = [] := by
    refine List.dropWhile_eq_nil_iff.mpr fun c hc => ?_
    rcases List.mem_append.mp hc with hc | hc
    · exact List.all_eq_true.mp (by decide : "OLOR".toList.all isNameChar = true) c hc
    · exact hdigits c hc
  have hcons : positional i = 'C' :: ("OLOR".toList ++ (toString i).toList) := rfl
  rw [Text.isName, hcons, Text.splitName, if_pos (by decide), hrest]
  rfl

/-- The semantic of a parameter is no reserved word and no place in memory: none of these
starts with its letter. -/
theorem positional_ne (i : Nat) :
    ofWord (String.ofList (positional i)) = .name (String.ofList (positional i)) ∧
      String.ofList (positional i) ∉ Decl.Grammar.placements := by
  have hhead : (String.ofList (positional i)).toList.head? = some 'C' := by
    rw [String.toList_ofList]
    rfl
  have hkeywords : keywords.all (fun x => x.1.toList.head? != some 'C') = true := by decide
  have hplacements : Decl.Grammar.placements.all (fun x => x.toList.head? != some 'C') = true := by
    decide
  have hlookup : keywords.lookup (String.ofList (positional i)) = none := by
    rw [List.lookup_eq_none_iff]
    intro x hx
    rw [bne_iff_ne]
    intro heq
    have hx' := List.all_eq_true.mp hkeywords x hx
    rw [← heq, hhead] at hx'
    cases hx'
  refine ⟨by rw [ofWord, hlookup], fun hmem => ?_⟩
  have hx := List.all_eq_true.mp hplacements _ hmem
  rw [hhead] at hx
  cases hx

/-! ### The cuts of a shader -/

namespace Shader

/-- The cut of a semantic. -/
def semanticCut (s : Text) : Cut := ⟨[' '], ofWord (String.ofList s), s⟩

/-- The cut in front of a semantic. -/
def colonCut : Cut := ⟨[' '], .symbol .colon, [':']⟩

/-- The cuts of a parameter and its semantic. -/
def paramCut (g : Text) (i : Nat) (cs : List Cut) : List Cut :=
  regap g cs ++ [colonCut, semanticCut (positional i)]

/-- The cuts of the parameters from position `i` on, with a comma in front of each. -/
def moreParamCuts : Nat → List (List Cut) → List Cut
  | _, [] => []
  | i, cs :: css =>
    ⟨[], .symbol .comma, [',']⟩ :: (paramCut [' '] i cs ++ moreParamCuts (i + 1) css)

/-- The cuts of parameters. -/
def paramCuts : List (List Cut) → List Cut
  | [] => []
  | cs :: css => paramCut [] 0 cs ++ moreParamCuts 1 css

/-- The cuts of what follows the parameters. -/
def bodyCuts (cs : List Cut) : List Cut :=
  colonCut :: semanticCut "SV_TARGET".toList :: regap ['\n'] cs

/-- The cuts of what follows the type. -/
def restCuts (params : List (List Cut)) (body : List Cut) : List Cut :=
  ⟨[' '], .name "PSMain", "PSMain".toList⟩ :: ⟨[], .symbol .leftParen, ['(']⟩ ::
    (paramCuts params ++ ⟨[], .symbol .rightParen, [')']⟩ :: bodyCuts body)

/-- The cuts of a shader behind the gap `g`, from those of the parts of its function. -/
def cuts (g : Text) (isConst : Bool) (type : List Cut) (params : List (List Cut))
    (body : List Cut) : List Cut :=
  if isConst then ⟨g, .keyword .const, "const".toList⟩ :: (regap [' '] type ++ restCuts params body)
  else regap g type ++ restCuts params body

/-! ### The text that they make up -/

/-- The cuts are those of the parts of a function, and they can stand elsewhere. -/
structure AreParts (type : List Cut) (params : List (List Cut)) (body : List Cut) : Prop where
  isType : IsType (type.map Cut.token)
  isParam : ∀ cs ∈ params, IsParam (cs.map Cut.token)
  isBody : IsGroup .leftBrace .rightBrace (body.map Cut.token)
  type_movable : Movable type
  params_movable : ∀ cs ∈ params, Movable cs
  body_movable : Movable body

/-- The function consists of these parts as far as its shader is concerned. -/
structure MadeOf (f : Function) (type : List Cut) (params : List (List Cut)) (body : List Cut) :
    Prop where
  type_eq : f.signature.returnType.text = written type
  params_eq : f.signature.params.map Param.text = params.map written
  body_eq : f.body = written body

variable {type body : List Cut} {params : List (List Cut)}

theorem raw_paramCut {g : Text} {cs : List Cut} (hcs : cs ≠ []) (i : Nat) :
    raw (paramCut g i cs) = g ++ (written cs ++ " : ".toList ++ positional i) := by
  simp [paramCut, raw_regap hcs, colonCut, semanticCut]

theorem join_params (i : Nat) {p : Param} {ps : List Param} {cs : List Cut}
    {css : List (List Cut)} (h : (p :: ps).map Param.text = (cs :: css).map written)
    (hne : ∀ cs ∈ css, cs ≠ []) (free : List Char) :
    Text.join [',', ' '] (List.zipWith (fun p semantic => p.text ++ " : ".toList ++ semantic)
        (p :: ps) (assignFrom .positional i free (p :: ps))) =
      written cs ++ " : ".toList ++ positional i ++ raw (moreParamCuts (i + 1) css) := by
  have hassign : ∀ (i : Nat) (p : Param) (ps : List Param),
      assignFrom .positional i free (p :: ps) =
        positional i :: assignFrom .positional (i + 1) free ps := by
    intro i p ps
    simp [assignFrom]
  induction css generalizing i p ps cs with
  | nil =>
    obtain ⟨hp, hps⟩ := List.cons.inj h
    obtain rfl := List.map_eq_nil_iff.mp hps
    rw [hassign, ← hp]
    simp [moreParamCuts, Text.join, assignFrom]
  | cons d css ih =>
    obtain ⟨hp, hps⟩ := List.cons.inj h
    obtain ⟨q, qs, rfl, -, -⟩ := List.map_eq_cons_iff.mp hps
    have hd := raw_paramCut (g := [' ']) (hne d (List.mem_cons_self ..)) (i + 1)
    have hrest := ih (i + 1) hps fun cs hcs => hne cs (List.mem_cons_of_mem _ hcs)
    rw [hassign, List.zipWith_cons_cons] at hrest
    rw [hassign, List.zipWith_cons_cons, hassign, List.zipWith_cons_cons, Text.join, hrest, ← hp,
      moreParamCuts, raw_cons, raw_append, hd]
    · simp
    · nofun

theorem renderParams_eq {ps : List Param} (h : ps.map Param.text = params.map written)
    (hne : ∀ cs ∈ params, cs ≠ []) : renderParams {} ps = raw (paramCuts params) := by
  rw [renderParams, assignSemantics]
  cases params with
  | nil =>
    obtain rfl := List.map_eq_nil_iff.mp h
    rfl
  | cons cs css =>
    obtain ⟨p, ps, rfl, -, -⟩ := List.map_eq_cons_iff.mp h
    have hrest := join_params 0 h (fun cs hcs => hne cs (List.mem_cons_of_mem _ hcs)) letters
    have hcs := raw_paramCut (g := []) (hne cs (List.mem_cons_self ..)) 0
    rw [paramCuts, raw_append, hcs]
    simpa using hrest

/-- **The cuts of a shader make up what is copied into it.** -/
theorem copied_eq {f : Function} (hparts : AreParts type params body)
    (h : MadeOf f type params body) (g : Text) :
    g ++ copied {} f =
      raw (cuts (g ++ ['\n']) f.signature.returnType.isConst type params body) ++ ['\n'] := by
  have hparams := renderParams_eq h.params_eq fun cs hcs => (hparts.params_movable cs hcs).ne_nil
  have hsignature : renderSignature {} "PSMain" f.signature =
      renderType f.signature.returnType ++ (" PSMain(".toList ++ (raw (paramCuts params) ++
        ") : SV_TARGET".toList)) := by
    rw [renderSignature, hparams, renderTarget, if_neg (by simp)]
    simp
  have hrest : raw (restCuts params body) = " PSMain(".toList ++ (raw (paramCuts params) ++
      (") : SV_TARGET".toList ++ ('\n' :: f.body))) := by
    rw [h.body_eq]
    simp [restCuts, bodyCuts, colonCut, semanticCut, raw_regap hparts.body_movable.ne_nil]
  have hcuts : ∀ g isConst, raw (cuts g isConst type params body) =
      g ++ (renderType ⟨written type, isConst⟩ ++ raw (restCuts params body)) := by
    intro g isConst
    cases isConst <;> simp [cuts, renderType, raw_regap hparts.type_movable.ne_nil]
  have hreturn : renderType ⟨written type, f.signature.returnType.isConst⟩ =
      renderType f.signature.returnType := by
    rw [← h.type_eq]
  rw [copied, hsignature, hcuts, hrest, hreturn]
  simp

/-! ### How they are read -/

variable {cs rest : List Cut} {css : List (List Cut)} {g t : Text}

theorem isGap_nil : IsGap [] := isGap_of_blank nofun

theorem isGap_singleton {x : Char} (hx : isBlank x = true) : IsGap [x] := by
  refine isGap_of_blank fun y hy => ?_
  rwa [List.mem_singleton.mp hy]

theorem isGap_space : IsGap [' '] := isGap_singleton rfl

theorem ready_colonCut {s : Text} (hs : Text.isName s = true) (h : Ready rest t)
    (hh : HardHead (raw rest ++ t)) : Ready (colonCut :: semanticCut s :: rest) t :=
  (h.word hs isGap_space hh).symbol rfl (by decide) isGap_space

theorem ready_paramCut (hcs : Movable cs) (hg : IsGap g) (i : Nat) (h : Ready rest t)
    (hh : HardHead (raw rest ++ t)) : Ready (paramCut g i cs ++ rest) t := by
  rw [paramCut, List.append_assoc]
  exact (ready_colonCut (isName_positional i) h hh).regap hcs hg
    (hardHead_raw_cons rfl (by decide))

theorem ready_moreParamCuts (hcss : ∀ cs ∈ css, Movable cs) (i : Nat) (h : Ready rest t)
    (hh : HardHead (raw rest ++ t)) :
    Ready (moreParamCuts i css ++ rest) t ∧ HardHead (raw (moreParamCuts i css ++ rest) ++ t) := by
  induction css generalizing i with
  | nil => exact ⟨h, hh⟩
  | cons cs css ih =>
    obtain ⟨hmore, hhead⟩ := ih (fun cs hcs => hcss cs (List.mem_cons_of_mem _ hcs)) (i + 1)
    have hcs := hcss cs (List.mem_cons_self ..)
    rw [moreParamCuts, List.cons_append, List.append_assoc]
    refine ⟨?_, hardHead_raw_cons rfl (by decide)⟩
    exact (ready_paramCut hcs isGap_space i hmore hhead).symbol rfl (by decide) isGap_nil

theorem ready_paramCuts (hcss : ∀ cs ∈ css, Movable cs) (h : Ready rest t)
    (hh : HardHead (raw rest ++ t)) : Ready (paramCuts css ++ rest) t := by
  cases css with
  | nil => exact h
  | cons cs css =>
    obtain ⟨hmore, hhead⟩ :=
      ready_moreParamCuts (fun cs hcs => hcss cs (List.mem_cons_of_mem _ hcs)) 1 h hh
    rw [paramCuts, List.append_assoc]
    exact ready_paramCut (hcss cs (List.mem_cons_self ..)) isGap_nil 0 hmore hhead

theorem ready_bodyCuts (hbody : Movable body) : Ready (bodyCuts body) ['\n'] := by
  have hend : Ready [] ['\n'] := ⟨trivial, rfl⟩
  have hhard : HardHead ['\n'] := by
    rintro x ⟨⟩
    rfl
  have hbody' := hend.regap hbody (isGap_singleton (x := '\n') rfl) hhard
  have hhead : HardHead (raw (regap ['\n'] body ++ []) ++ ['\n']) := by
    rw [raw_append, raw_regap hbody.ne_nil]
    rintro x ⟨⟩
    rfl
  rw [List.append_nil] at hbody' hhead
  exact ready_colonCut (by decide) hbody' hhead

theorem ready_restCuts (hparams : ∀ cs ∈ params, Movable cs) (hbody : Movable body) :
    Ready (restCuts params body) ['\n'] := by
  have hright := (ready_bodyCuts hbody).symbol (k := .rightParen) (x := ')') rfl (by decide)
    isGap_nil
  have hparen := (ready_paramCuts hparams hright (hardHead_raw_cons rfl (by decide))).symbol
    (k := .leftParen) (x := '(') rfl (by decide) isGap_nil
  exact hparen.word (s := "PSMain".toList) (by decide) isGap_space
    (hardHead_raw_cons rfl (by decide))

/-- **The cuts of a shader are read one after the other.** -/
theorem ready_cuts (hparts : AreParts type params body) (hg : IsGap g) (isConst : Bool) :
    Ready (cuts g isConst type params body) ['\n'] := by
  have htype := hparts.type_movable
  have hrest := ready_restCuts hparts.params_movable hparts.body_movable
  have hhead : HardHead (raw (restCuts params body) ++ ['\n']) := hardHead_raw_cons rfl (by decide)
  cases isConst with
  | false => exact hrest.regap htype hg hhead
  | true =>
    have hspace : HardHead (raw (regap [' '] type ++ restCuts params body) ++ ['\n']) := by
      rw [raw_append, raw_regap htype.ne_nil]
      rintro x ⟨⟩
      rfl
    exact (hrest.regap htype isGap_space hhead).word (s := "const".toList) (by decide) hg hspace

end Shader

/-! ### The function of a shader -/

section Reading

open Decl Decl.Parser Decl.Grammar Shader

variable {p : Preprocessed} {ts us : List Lexeme} {cs rest type body : List Cut}
  {css params : List (List Cut)}

theorem kinds_of_laid {g : Text} (h : Laid p (regap g cs) ts) : kinds ts = cs.map Cut.token := by
  rw [h.kinds_eq, map_token_regap]

theorem sourceOf_of_laid {g : Text} (h : Laid p (regap g cs) ts) (hcs : cs.map Cut.token ≠ []) :
    sourceOf p ts = written cs := by
  obtain ⟨c, cs, rfl⟩ := List.exists_cons_of_ne_nil fun hnil => hcs (List.map_eq_nil_iff.mpr hnil)
  rw [h.sourceOf_all nofun, regap, written_cons, written_cons]

/-- One parameter is laid out with its semantic behind it. -/
theorem exists_of_paramCut {g : Text} {i : Nat} (h : Laid p (paramCut g i cs ++ rest) ts) :
    ∃ ws c s more, ts = ws ++ c :: s :: more ∧ Laid p (regap g cs) ws ∧
      c.token = .symbol .colon ∧ s.token = .name (String.ofList (positional i)) ∧
      Laid p rest more := by
  rw [paramCut, List.append_assoc] at h
  obtain ⟨ws, r, rfl, hws, hr⟩ := h.exists_append
  obtain ⟨c, r, rfl, hc, hr⟩ := hr.exists_cons
  obtain ⟨s, more, rfl, hs, hmore⟩ := hr.exists_cons
  rw [semanticCut, (positional_ne i).1] at hs
  exact ⟨ws, c, s, more, rfl, hws, hc, hs, hmore⟩

/-- Behind a parameter stands a comma or the parenthesis. -/
theorem head?_of_moreParamCuts {i : Nat} {r : Cut} (hr : r.token = .symbol .rightParen)
    (h : Laid p (moreParamCuts i css ++ r :: rest) ts) :
    ∀ t ∈ (ts ++ us).head?, t.token = .symbol .comma ∨ t.token = .symbol .rightParen := by
  intro t ht
  cases css with
  | nil =>
    obtain ⟨u, ts, rfl, hu, -⟩ := h.exists_cons
    cases ht
    exact .inr (hu.trans hr)
  | cons cs css =>
    obtain ⟨u, ts, rfl, hu, -⟩ := h.exists_cons
    cases ht
    exact .inl hu

/-- **The parameters of a shader are read again.** -/
theorem exists_of_moreParamCuts (hcss : ∀ cs ∈ css, IsParam (cs.map Cut.token)) {i : Nat} {r : Cut}
    (hr : r.token = .symbol .rightParen) (h : Laid p (moreParamCuts i css ++ r :: rest) ts) :
    ∃ Ps u more, many (do symbol .comma; param p) (ts ++ us) = .ok (Ps, u :: (more ++ us)) ∧
      u.token = .symbol .rightParen ∧ Laid p rest more ∧ Ps.map Param.text = css.map written := by
  induction css generalizing i ts with
  | nil =>
    obtain ⟨u, more, rfl, hu, hmore⟩ := h.exists_cons
    exact ⟨[], u, more, many_params_nil (hu.trans hr), hu.trans hr, hmore, rfl⟩
  | cons cs css ih =>
    rw [moreParamCuts, List.cons_append, List.append_assoc] at h
    obtain ⟨k, ts, rfl, hk, h⟩ := h.exists_cons
    obtain ⟨ws, c, s, more, rfl, hws, hc, hs, hmore⟩ := exists_of_paramCut h
    obtain ⟨Ps, u, more', hmany, hu, hrest, htexts⟩ :=
      ih (fun cs hcs => hcss cs (List.mem_cons_of_mem _ hcs)) hmore
    have hcs := hcss cs (List.mem_cons_self ..)
    obtain ⟨P, hP, htext⟩ := many_params_cons hk (kinds_of_laid hws ▸ hcs) hc hs
      (positional_ne i).2 (head?_of_moreParamCuts hr hmore) hmany
    refine ⟨P :: Ps, u, more', ?_, hu, hrest, ?_⟩
    · simpa using hP
    · rw [List.map_cons, List.map_cons, htext, htexts, sourceOf_of_laid hws hcs.ne_nil]

theorem exists_of_paramCuts (hcss : ∀ cs ∈ css, IsParam (cs.map Cut.token)) {l : Lexeme} {r : Cut}
    (hl : l.token = .symbol .leftParen) (hr : r.token = .symbol .rightParen)
    (h : Laid p (paramCuts css ++ r :: rest) ts) (us : List Lexeme) :
    ∃ Ps more, Grammar.params p (l :: (ts ++ us)) = .ok (Ps, more ++ us) ∧ Laid p rest more ∧
      Ps.map Param.text = css.map written := by
  cases css with
  | nil =>
    obtain ⟨u, more, rfl, hu, hmore⟩ := h.exists_cons
    exact ⟨[], more, params_nil hl (hu.trans hr), hmore, rfl⟩
  | cons cs css =>
    rw [paramCuts, List.append_assoc] at h
    obtain ⟨ws, c, s, more, rfl, hws, hc, hs, hmore⟩ := exists_of_paramCut h
    obtain ⟨Ps, u, more', hmany, hu, hrest, htexts⟩ :=
      exists_of_moreParamCuts (fun cs hcs => hcss cs (List.mem_cons_of_mem _ hcs)) hr hmore
    have hcs := hcss cs (List.mem_cons_self ..)
    obtain ⟨P, hP, htext⟩ := params_cons hl (kinds_of_laid hws ▸ hcs) hc hs
      (positional_ne 0).2 (head?_of_moreParamCuts hr hmore) hu hmany
    refine ⟨P :: Ps, more', ?_, hrest, ?_⟩
    · simpa using hP
    · rw [List.map_cons, List.map_cons, htext, htexts, sourceOf_of_laid hws hcs.ne_nil]

/-- The type of a shader is laid out behind a `const`, if there is one. -/
theorem exists_of_cuts {g : Text} {isConst : Bool}
    (h : Laid p (cuts g isConst type params body) ts) :
    ∃ pre ws more g', ts = pre ++ (ws ++ more) ∧
      (kinds pre = [] ∨ kinds pre = [.keyword .const]) ∧ (!pre.isEmpty) = isConst ∧
      Laid p (regap g' type) ws ∧ Laid p (restCuts params body) more := by
  cases isConst with
  | false =>
    obtain ⟨ws, more, rfl, hws, hmore⟩ := h.exists_append
    exact ⟨[], ws, more, g, rfl, .inl rfl, rfl, hws, hmore⟩
  | true =>
    obtain ⟨c, ts, rfl, hc, h⟩ := h.exists_cons
    obtain ⟨ws, more, rfl, hws, hmore⟩ := h.exists_append
    exact ⟨[c], ws, more, [' '], rfl, .inr (by rw [kinds_cons, hc]; rfl), rfl, hws, hmore⟩

/-- **A shader is read as a function that is made of the same parts.** -/
theorem exists_declaration_of_cuts {g : Text} {isConst : Bool}
    (hparts : AreParts type params body) (h : Laid p (cuts g isConst type params body) ts)
    (us : List Lexeme) :
    ∃ f, declaration p (ts ++ us) = .ok (.function f, us) ∧ f.signature.name = "PSMain" ∧
      f.signature.returnType.isConst = isConst ∧ MadeOf f type params body := by
  have hbody : body.map Cut.token ≠ [] := by
    intro hnil
    have hhead := hparts.isBody.head
    rw [hnil] at hhead
    cases hhead
  obtain ⟨pre, ws, more, g', rfl, hpre, hconst, hws, hmore⟩ := exists_of_cuts h
  obtain ⟨t, more, rfl, ht, hmore⟩ := hmore.exists_cons
  obtain ⟨l, more, rfl, hl, hmore⟩ := hmore.exists_cons
  obtain ⟨Ps, more', hPs, hmore', htexts⟩ :=
    exists_of_paramCuts hparts.isParam hl rfl hmore us
  obtain ⟨c, r, rfl, hc, hr⟩ := hmore'.exists_cons
  obtain ⟨s, bs, rfl, hs, hbs⟩ := hr.exists_cons
  obtain ⟨f, hf, hname, hreturn, hparams, hbodyText⟩ := declaration_of_parts
    hpre (kinds_of_laid hws ▸ hparts.isType) ht hPs hc (hs : s.token = .name "SV_TARGET")
    (by decide) (kinds_of_laid hbs ▸ hparts.isBody)
  refine ⟨f, ?_, hname, ?_, ?_, ?_, ?_⟩
  · simpa using hf
  · rw [hreturn]
    exact hconst
  · rw [hreturn]
    exact sourceOf_of_laid hws hparts.isType.ne_nil
  · rw [hparams, htexts]
  · rw [hbodyText, sourceOf_of_laid hbs hbody]

end Reading

/-! ### Shaders of shaders -/

theorem Shader.isGap_front : IsGap (Shader.front ++ ['\n']) := by
  have hblank : (blank (Shader.front ++ ['\n'])).all isBlank = true := by decide
  exact ⟨List.all_eq_true.mp hblank, fun y => rfl⟩

theorem Shader.plain_front : ∀ l ∈ codeLines Shader.front, isDirectiveLine l = false := by
  refine quiet_iff.mp ?_
  decide

/-- A text with one declaration, which starts with a word. -/
theorem outline_of_declaration {p : Preprocessed} {c : Cut} {cs : List Cut} {v : Text} {d : Decl}
    (hcode : p.code = blank (raw (c :: cs) ++ v)) (hs : Standing (c :: cs) v)
    (hv : ∀ x ∈ blank v, isBlank x = true) (hc : isWord c.token = true)
    {e : Lexeme} (he : e = ⟨.eof, ⟨Text.size p.code, Text.size p.code⟩⟩)
    (hd : Decl.Grammar.declaration p (lexemes 0 (c :: cs) ++ [e]) = .ok (d, [e])) :
    outline p = .ok [d] := by
  subst he
  have htokens : tokens p.code = .ok (lexemes 0 (c :: cs)) := by
    rw [tokens, hcode]
    exact (tokensFrom_blank_eq_ok_iff 0).mpr ⟨c :: cs, v, rfl, hs, hv, rfl⟩
  have hend : Decl.atEnd
      (lexemes 0 (c :: cs) ++ [⟨.eof, ⟨Text.size p.code, Text.size p.code⟩⟩]) = false := by
    change (c.token == .eof) = false
    rw [beq_eq_false_iff_ne]
    intro he
    rw [he] at hc
    cases hc
  rw [outline, lex, htokens]
  simp only [Decl.parse_of_outline (Decl.outline_singleton hend hd rfl)]
  rfl

section Shaders

open Shader

variable {f : Function} {type body : List Cut} {params : List (List Cut)}

/-- The first cut of a shader is a word behind the gap. -/
theorem exists_head_cuts (hparts : AreParts type params body) (g : Text) (isConst : Bool) :
    ∃ c cs, cuts g isConst type params body = c :: cs ∧ c.gap = g ∧ isWord c.token = true := by
  cases isConst with
  | true => exact ⟨_, _, rfl, rfl, rfl⟩
  | false =>
    obtain ⟨c, type, rfl⟩ := List.exists_cons_of_ne_nil hparts.type_movable.ne_nil
    refine ⟨{ c with gap := g }, type ++ restCuts params body, rfl, rfl, ?_⟩
    obtain ⟨k, hk, hword⟩ := hparts.isType.head
    cases hk
    rcases hword with hword | ⟨n, hword⟩
    · rw [hword]
      rfl
    · rw [hword]
      rfl

/-- **The shader of a function is read as a function that has the same shader.** -/
theorem exists_outline_of_renderFile (hparts : AreParts type params body)
    (hf : MadeOf f type params body) (name : Option String) :
    ∃ p f', (Preprocessed.run (fun _ => none) name (renderFile {} f)).result = .ok p ∧
      outline p = .ok [.function f'] ∧ f'.signature.name = "PSMain" ∧
      f'.signature.params.length = f.signature.params.length ∧
      renderFile {} f' = renderFile {} f := by
  have hplain : ∀ l ∈ codeLines (copied {} f), isDirectiveLine l = false := by
    have hready := ready_cuts hparts (isGap_singleton (x := '\n') rfl)
      f.signature.returnType.isConst
    have hcopied := copied_eq hparts hf []
    rw [List.nil_append, List.nil_append] at hcopied
    refine quiet_iff.mp ?_
    rw [hcopied, hready.standing.blank_append]
    exact quiet_append hready.isQuiet rfl
  obtain ⟨p, hp, hshows⟩ := Preprocessed.exists_shows_of_include_none name
    (f := "UnityCG.cginc".toList) (by decide) (by decide) complete_front plain_front hplain
  have hready := ready_cuts hparts isGap_front f.signature.returnType.isConst
  have hraw := copied_eq hparts hf front
  obtain ⟨c, cs, hcuts, hgap, hword⟩ :=
    exists_head_cuts hparts (front ++ ['\n']) f.signature.returnType.isConst
  have hlaid : Laid p (cuts (front ++ ['\n']) f.signature.returnType.isConst type params body)
      (lexemes 0 (cuts (front ++ ['\n']) f.signature.returnType.isConst type params body)) := by
    refine hshows.laid hraw hready.standing ?_
    rw [hcuts]
    rintro d ⟨⟩
    rw [hgap]
    exact List.prefix_append _ _
  obtain ⟨f', hd, hname, hconst, hf'⟩ := exists_declaration_of_cuts hparts hlaid
    [⟨.eof, ⟨Text.size p.code, Text.size p.code⟩⟩]
  have hcode := hshows.code
  have hstanding := hready.standing
  rw [hraw] at hcode
  rw [hcuts] at hcode hstanding hd
  have hend : ∀ x ∈ blank ['\n'], isBlank x = true := by
    intro x hx
    cases List.mem_singleton.mp hx
    rfl
  have hlength := congrArg List.length (hf'.params_eq.trans hf.params_eq.symm)
  rw [List.length_map, List.length_map] at hlength
  have hsame : copied {} f' = copied {} f := by
    have hraw' := copied_eq hparts hf' front
    rw [hconst, ← hraw] at hraw'
    exact List.append_cancel_left hraw'
  refine ⟨p, f', ?_, outline_of_declaration hcode hstanding hend hword rfl hd, hname, hlength, ?_⟩
  · rw [renderFile_eq]
    exact hp
  · rw [renderFile_eq, renderFile_eq, hsame]

end Shaders

theorem exists_of_outline {p : Preprocessed} {ds : List Decl} (h : outline p = .ok ds) :
    ∃ ls, tokens p.code = .ok ls ∧ Decl.Grammar.declarations p
      (ls ++ [⟨.eof, ⟨Text.size p.code, Text.size p.code⟩⟩]) = .ok ds := by
  rw [outline, lex] at h
  cases htokens : tokens p.code with
  | error e =>
    rw [htokens] at h
    cases h
  | ok ls =>
    rw [htokens] at h
    refine ⟨ls, rfl, ?_⟩
    simp only [Decl.parse] at h
    cases hdecls : Decl.Grammar.declarations p
        (ls ++ [⟨.eof, ⟨Text.size p.code, Text.size p.code⟩⟩]) with
    | error e =>
      rw [hdecls] at h
      cases h
    | ok ds' =>
      rw [hdecls] at h
      cases h
      rfl

/-- **The functions of a text without directives are made of parts that can stand
elsewhere.** -/
theorem exists_areParts {load : String → Option Text} {name : Option String} {text : Text}
    (hplain : ∀ l ∈ codeLines text, isDirectiveLine l = false) {p : Preprocessed} {ds : List Decl}
    (hp : (Preprocessed.run load name text).result = .ok p) (hds : outline p = .ok ds)
    {f : Function} (hf : f ∈ functions ds) :
    ∃ type params body, Shader.AreParts type params body ∧ Shader.MadeOf f type params body := by
  obtain ⟨_, hrun, hshows⟩ := Preprocessed.exists_shows_of_plain load name hplain
  cases hp.symm.trans hrun
  obtain ⟨ls, htokens, hdecls⟩ := exists_of_outline hds
  rw [tokens, hshows.code, List.nil_append] at htokens
  obtain ⟨cs, v, rfl, hstanding, -, rfl⟩ := (tokensFrom_blank_eq_ok_iff 0).mp htokens
  obtain ⟨type, params, body, hparts⟩ := Decl.exists_parts_of_mem_functions hdecls hf
  have hsource : PlainSource p cs v := ⟨hshows, hstanding, quiet_iff.mpr hplain⟩
  obtain ⟨⟨tc, htype⟩, hparams, ⟨bc, hbody⟩⟩ := hsource.exists_passages rfl hparts
  choose! cut hcut using hparams
  refine ⟨tc, params.map cut, bc, ⟨?_, ?_, ?_, htype.toMovable, ?_, hbody.toMovable⟩, ?_, ?_, ?_⟩
  · rw [← htype.kinds_eq]
    exact hparts.isType
  · intro cs hcs
    obtain ⟨ws, hws, rfl⟩ := List.mem_map.mp hcs
    rw [← (hcut ws hws).kinds_eq]
    exact (hparts.params_within ws hws).1
  · rw [← hbody.kinds_eq]
    exact hparts.isBody
  · intro cs hcs
    obtain ⟨ws, hws, rfl⟩ := List.mem_map.mp hcs
    exact (hcut ws hws).toMovable
  · rw [hparts.type_text, htype.sourceOf_eq]
  · rw [hparts.params_text, List.map_map]
    exact List.map_congr_left fun ws hws => (hcut ws hws).sourceOf_eq
  · rw [hparts.body_text, hbody.sourceOf_eq]

/-- **The shader of a shader is the shader itself**, under the name that all shaders start
with, if the source holds no directives. -/
theorem generate_idempotent (load : String → Option Text) (name name' : String) {text : Text}
    (hplain : ∀ l ∈ codeLines text, isDirectiveLine l = false) {shaders : Shaders}
    (h : (generate load {} name text).result = .ok shaders) {s : Shader}
    (hs : s ∈ shaders.shaders) :
    ∃ s', (generate (fun _ => none) {} name' s.text).result = .ok ⟨[s'], []⟩ ∧
      s'.name = "PSMain" ∧ s'.text = s.text := by
  obtain ⟨p, ds, hp, hds, rfl⟩ := exists_of_generate h
  obtain ⟨f, hf, hlength, -, htext⟩ := exists_of_mem_shaders hs
  obtain ⟨type, params, body, hparts, hmade⟩ := exists_areParts hplain hp hds hf
  obtain ⟨p', f', hp', hds', hname, hlength', hsame⟩ :=
    exists_outline_of_renderFile hparts hmade (some name')
  refine ⟨⟨f'.signature.name, Shader.renderFile {} f', Shader.renderConsole {} f'⟩, ?_, hname, ?_⟩
  · rw [← ofFunctions_singleton (hlength'.trans_le hlength)]
    unfold generate
    simp only [htext, hp', hds']
    rfl
  · rw [htext]
    exact hsame

/-- A function with a type that is `const`, parameters of two kinds and comments. -/
def plainSource : Text :=
  ("const half4 f(in half a /* first */, int b[2] : B) : C \x7b\n" ++
    "  return a; // last\n\x7d\n").toList

/-- The function as it is read. -/
def plainFunction : Function :=
  { signature :=
      { name := "f"
        location := ⟨some "f", 1, 13⟩
        returnType := ⟨"half4".toList, true⟩
        params := [
          ⟨"a", [.input], ⟨"half".toList, false⟩, [], none, none, "in half a".toList⟩,
          ⟨"b", [], ⟨"int".toList, false⟩, [['2']], some "B", none, "int b[2]".toList⟩]
        semantic := some "C"
        attributes := [] }
    body := "\x7b\n  return a; // last\n\x7d".toList
    span := ⟨55, 78⟩ }

theorem decls?_plainSource :
    decls? (fun _ => none) "f" plainSource 40 = some [.function plainFunction] := by
  cbv

theorem plain_plainSource : ∀ l ∈ codeLines plainSource, isDirectiveLine l = false := by
  refine quiet_iff.mp ?_
  cbv

theorem generate_idempotent_plainSource :
    (∀ l ∈ codeLines plainSource, isDirectiveLine l = false) ∧
      ∃ s', (generate (fun _ => none) {} "g" (Shader.renderFile {} plainFunction)).result =
        .ok ⟨[s'], []⟩ ∧ s'.name = "PSMain" ∧ s'.text = Shader.renderFile {} plainFunction := by
  have hgenerate : (generate (fun _ => none) {} "f" plainSource).result =
      .ok (Shaders.ofFunctions {} [plainFunction]) := generate_of_decls? 40 decls?_plainSource {}
  have hmem := mem_shaders_singleton (f := plainFunction) (by decide)
  have hagain := generate_idempotent (fun _ => none) "f" "g" plain_plainSource hgenerate hmem
  exact ⟨plain_plainSource, hagain⟩

end PixelWrap
