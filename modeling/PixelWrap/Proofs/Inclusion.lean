import Mathlib
import PixelWrap.Proofs.Branches
import PixelWrap.Proofs.Joins
import PixelWrap.Proofs.Occurrences
import PixelWrap.Proofs.SourceMap

/-!
# Inclusion is textual

An `#include` does what the text of the file would do in its place.  The file is run in
the state that the text in front of the directive leaves, with its macros and its open
groups, and the text behind the directive goes on from there.  There are two differences
between the runs.  A line feed is put out after the file, and the file can nest includes
less deeply; locations, notices and the origins of the output apart.

## Main definitions

* `Preprocessed.Alike`: two states differ in what has been put out up to some moment.
* `Preprocessed.Follows`: two runs end alike, or the first one nests includes too deeply.
* `Complete`: a text leaves nothing open at its end.
* `Preprocessed.stateAfter`: the state of a run after a part of the main file.

## Main results

* `Preprocessed.Follows.step`, `Preprocessed.Follows.runItems`: runs from states that are
  alike end alike.
* `Preprocessed.run_include`: **an `#include` runs as the text that it includes.**
-/

namespace PixelWrap

namespace Preprocessed

variable {load : String → Option Text} {depth depth' : Nat} {e e' : Entry} {s s' : State}
  {x x' : Text}

/-! ### States that are alike -/

/-- The states have the same macros and the same open groups, and the same has been put
out after `x` in one of them and after `x'` in the other. -/
structure Alike (x x' : Text) (s s' : State) : Prop where
  macros : s.macros = s'.macros
  groups : s.groups = s'.groups
  code : ∃ y, s.output.code = x ++ y ∧ s'.output.code = x' ++ y

/-- The runs end in states that are alike or fail for the same reason, unless the first
one nests includes too deeply. -/
inductive Follows (x x' : Text) : Except Stop State → Except Stop State → Prop
  | ok {s s' : State} : Alike x x' s s' → Follows x x' (.ok s) (.ok s')
  | failed {stop stop' : Stop} : stop.error.reason = stop'.error.reason →
      Follows x x' (.error stop) (.error stop')
  | exceeded {stop : Stop} {name : String} {r : Except Stop State} :
      stop.error.reason = .includeDepthExceeded name → Follows x x' (.error stop) r

theorem Follows.bind {r r' : Except Stop State} {k k' : State → Except Stop State}
    (h : Follows x x' r r')
    (hk : ∀ s s', Alike x x' s s' → Follows x x' (k s) (k' s')) :
    Follows x x' (r >>= k) (r' >>= k') := by
  cases h with
  | ok hs => exact hk _ _ hs
  | failed hr => exact .failed hr
  | exceeded hr => exact .exceeded hr

theorem State.code_emit (s : State) (cs : List Chunk) :
    (s.emit cs).output.code = s.output.code ++ cs.flatMap Chunk.text := by
  rw [State.emit]
  generalize s.output = o
  induction cs generalizing o with
  | nil => simp
  | cons c cs ih => rw [List.foldl_cons, ih, Output.code_push, List.flatMap_cons, List.append_assoc]

theorem flatMap_text_chunksOf (file offset : Nat) (ps : List Macro.Piece) :
    (chunksOf file offset ps).flatMap Chunk.text = Macro.flatten ps := by
  induction ps generalizing offset with
  | nil => rfl
  | cons p ps ih =>
    cases p with
    | kept source => simp [chunksOf, ih, Macro.flatten, Macro.Piece.output]
    | replaced source output => simp [chunksOf, ih, Macro.flatten, Macro.Piece.output]

namespace Alike

theorem emit (h : Alike x x' s s') {cs cs' : List Chunk}
    (hc : cs.flatMap Chunk.text = cs'.flatMap Chunk.text) :
    Alike x x' (s.emit cs) (s'.emit cs') := by
  obtain ⟨y, hy, hy'⟩ := h.code
  refine ⟨h.macros, h.groups, y ++ cs.flatMap Chunk.text, ?_, ?_⟩
  · rw [State.code_emit, hy, List.append_assoc]
  · rw [State.code_emit, hy', hc, List.append_assoc]

theorem within (h : Alike x x' s s') (gs : Groups) : Alike x x' (s.within gs) (s'.within gs) :=
  ⟨h.macros, rfl, h.code⟩

end Alike

/-! ### One item -/

/-- Running included files ends alike where the first run may include files at all. -/
def DescendAlike (x x' : Text) (descend descend' : Descend) : Prop :=
  ∀ run ∈ descend, ∃ run', descend' = some run' ∧ ∀ {e e' : Entry} {s s' : State},
    e.file.text = e'.file.text → Alike x x' s s' → Follows x x' (run e s) (run' e' s')

section Step

variable {descend descend' : Descend} {offset offset' : Nat}

theorem Alike.storeRegion (h : Alike x x' s s') (text : Text) :
    Follows x x' (Preprocessed.storeRegion e offset text s)
      (Preprocessed.storeRegion e' offset' text s') := by
  rw [Preprocessed.storeRegion, Preprocessed.storeRegion, h.macros]
  cases s'.macros.substitute text with
  | error f => exact .failed rfl
  | ok pieces =>
    refine .ok (h.emit ?_)
    rw [flatMap_text_chunksOf, flatMap_text_chunksOf]

theorem Alike.includeFile (h : Alike x x' s s') (hd : DescendAlike x x' descend descend')
    (operands : Text) :
    Follows x x' (Preprocessed.includeFile load descend e offset operands s)
      (Preprocessed.includeFile load descend' e' offset' operands s') := by
  unfold Preprocessed.includeFile
  cases Directive.includeName? operands with
  | none => exact .failed rfl
  | some name =>
    cases descend with
    | none => exact .exceeded rfl
    | some run =>
      obtain ⟨run', rfl, hrun⟩ := hd run rfl
      dsimp only
      cases load name with
      | none => exact .ok ⟨h.macros, h.groups, h.code⟩
      | some text =>
        refine Follows.bind (hrun rfl ⟨h.macros, h.groups, h.code⟩) ?_
        intro s s' hs
        exact .ok (hs.emit rfl)

theorem Alike.defineMacro (h : Alike x x' s s') (operands : Text) :
    Follows x x' (Preprocessed.defineMacro e offset operands s)
      (Preprocessed.defineMacro e' offset' operands s') := by
  unfold Preprocessed.defineMacro
  cases Directive.definition? operands with
  | none => exact .failed rfl
  | some m =>
    -- A notice on a redefinition changes nothing that the states have in common.
    refine .ok ?_
    rw [h.macros]
    split
    · exact ⟨congrArg (·.define m) h.macros, h.groups, h.code⟩
    · exact ⟨congrArg (·.define m) h.macros, h.groups, h.code⟩

theorem Alike.perform (h : Alike x x' s s') (hd : DescendAlike x x' descend descend')
    (d : Directive) :
    Follows x x' (Preprocessed.perform load descend e offset s d)
      (Preprocessed.perform load descend' e' offset' s' d) := by
  cases d with
  | includeFile operands => exact h.includeFile hd operands
  | define operands => exact h.defineMacro operands
  | undefine name =>
    simp only [Preprocessed.perform]
    split
    · exact .ok ⟨congrArg (Macro.Table.undefine · _) h.macros, h.groups, h.code⟩
    · exact .failed rfl
  | unknown name => exact .failed rfl
  | message kind text => exact .ok ⟨h.macros, h.groups, h.code⟩
  | _ => exact .ok h

/-- **An item does the same in states that are alike**, wherever it stands in its file. -/
theorem Follows.step (h : Alike x x' s s') (hd : DescendAlike x x' descend descend') {i i' : Item}
    (hi : i.content = i'.content) :
    Follows x x' (Preprocessed.step load descend e s i)
      (Preprocessed.step load descend' e' s' i') := by
  cases i with
  | region offset text =>
    cases i' with
    | directive => cases hi
    | region offset' text' =>
      cases hi
      rw [Preprocessed.step, Preprocessed.step, h.groups]
      split
      · exact h.storeRegion text
      · exact .ok h
  | directive offset command =>
    cases i' with
    | region => cases hi
    | directive offset' command' =>
      cases hi
      have hr : regroup s.macros s.groups command (Directive.ofCommand command) =
          regroup s'.macros s'.groups command (Directive.ofCommand command) := by
        rw [h.macros, h.groups]
      have ha : s.groups.isActive = s'.groups.isActive := congrArg _ h.groups
      rw [Preprocessed.step, Preprocessed.step, hr, ha]
      cases regroup s'.macros s'.groups command (Directive.ofCommand command) with
      | error reason => exact .failed rfl
      | ok gs =>
        simp only
        split
        · exact (h.within gs).perform hd _
        · exact .ok (h.within gs)

end Step

/-! ### Whole runs -/

theorem follows_of_descendAlike (h : Alike x x' s s')
    (hd : DescendAlike x x' (descend load depth) (descend load depth')) {is is' : List Item}
    (hi : is.map Item.content = is'.map Item.content) :
    Follows x x' (runItems load depth e s is) (runItems load depth' e' s' is') := by
  induction is generalizing s s' is' with
  | nil =>
    cases is' with
    | cons => cases hi
    | nil => exact .ok h
  | cons i is ih =>
    cases is' with
    | nil => cases hi
    | cons i' is' =>
      obtain ⟨hhead, htail⟩ := List.cons.inj hi
      rw [runItems_cons, runItems_cons]
      exact Follows.bind (.step h hd hhead) fun s s' hs => ih hs htail

theorem descendAlike (h : depth ≤ depth') :
    DescendAlike x x' (descend load depth) (descend load depth') := by
  induction depth generalizing depth' with
  | zero =>
    intro run hrun
    cases hrun
  | succ below ih =>
    obtain ⟨below', rfl⟩ : ∃ below', depth' = below' + 1 := ⟨depth' - 1, by omega⟩
    intro run hrun
    cases hrun
    refine ⟨_, rfl, ?_⟩
    intro e e' s s' he hs
    rw [runFile_eq, runFile_eq, SourceFile.code, SourceFile.code, he]
    exact follows_of_descendAlike hs (ih (by omega)) rfl

/-- **Runs over the same items from states that are alike end alike**, if the second one
may nest includes as deeply as the first one. -/
theorem Follows.runItems (h : Alike x x' s s') (hd : depth ≤ depth') {is is' : List Item}
    (hi : is.map Item.content = is'.map Item.content) :
    Follows x x' (Preprocessed.runItems load depth e s is)
      (Preprocessed.runItems load depth' e' s' is') :=
  follows_of_descendAlike h (descendAlike hd) hi

end Preprocessed

/-! ### Texts that leave nothing open -/

/-- The lines of the text without its comments. -/
def codeLines (t : Text) : List Text := Text.lines (Comment.blank t)

/-- The text ends outside of comments and string literals, at the end of a line, and not
within a directive that runs on. -/
structure Complete (t : Text) : Prop where
  ended : Text.Ended t
  mode : Comment.modeAfter .code t = .code
  directive : endsContinued false (codeLines t) = false

theorem Complete.codeLines_append {t : Text} (h : Complete t) (u : Text) :
    codeLines (t ++ u) = codeLines t ++ codeLines u := by
  rw [codeLines, Comment.blank, Comment.blankFrom_append .code h.ended.clean, h.mode,
    Text.lines_append (Comment.ended_blankFrom _ h.ended)]
  rfl

/-- A line with the given directive in it. -/
structure IsLine (l : Text) (d : Directive) : Prop where
  codeLines_append : ∀ u, codeLines (l ++ u) = l :: codeLines u
  isDirective : isDirectiveLine l = true
  isContinued : isContinued l = false
  directive : Directive.ofCommand (.ofLines [l]) = d

theorem IsLine.ofLines {l : Text} {d : Directive} (h : IsLine l d) (offset : Nat)
    (ls : List Text) :
    Item.ofLines offset (l :: ls) =
      .directive (offset + Text.size (l.takeWhile isSpace)) (.ofLines [l]) ::
        Item.ofLines (offset + Text.size l) ls := by
  have hc : continuation l ls = [] := by
    cases ls with
    | nil => rfl
    | cons m ms => rw [continuation, h.isContinued, if_neg Bool.false_ne_true]
  rw [Item.ofLines, if_pos h.isDirective, hc]
  simp

/-- The offset after a text and a line that follows it. -/
def offsetAfter (offset : Nat) (front l : Text) : Nat :=
  offset + Text.size (codeLines front).flatten + Text.size l

/-- The items of a text in which a directive stands on a line between two parts. -/
theorem Complete.ofLines_append {front l : Text} {d : Directive} (hfront : Complete front)
    (hl : IsLine l d) (offset : Nat) (back : Text) :
    Item.ofLines offset (codeLines (front ++ (l ++ back))) =
      Item.ofLines offset (codeLines front) ++
        .directive (offsetAfter offset front (l.takeWhile isSpace)) (.ofLines [l]) ::
          Item.ofLines (offsetAfter offset front l) (codeLines back) := by
  have hhead : (l :: codeLines back).head?.all isDirectiveLine = true := hl.isDirective
  rw [hfront.codeLines_append, hl.codeLines_append,
    Item.ofLines_append _ hfront.directive hhead, hl.ofLines]
  rfl

/-! ### The two kinds of lines -/

/-- The line that includes the file. -/
def includeLine (f : Text) : Text := "#include \"".toList ++ f ++ "\"\n".toList

/-- A line with a directive that has no effect. -/
def pragmaLine : Text := "#pragma\n".toList

/-- A name in quotes that has no quote and no line end in it is a string literal, or the
start of one that ends with the line. -/
theorem blankFrom_quoted {f : Text} (hq : '"' ∉ f) (hn : '\n' ∉ f) :
    Comment.blankFrom .quoted (f ++ ['"', '\n']) = f ++ ['"', '\n'] ∧
      Comment.modeAfter .quoted (f ++ ['"', '\n']) = .code := by
  match f with
  | [] => exact ⟨by decide, by decide⟩
  | c :: r =>
    simp only [List.mem_cons, not_or] at hq hn
    by_cases hc : c = '\\'
    · subst hc
      match r with
      | [] => exact ⟨by decide, by decide⟩
      | c :: r =>
        -- The backslash takes the next character along.
        simp only [List.mem_cons, not_or] at hq hn
        obtain ⟨hb, hm⟩ := blankFrom_quoted hq.2.2 hn.2.2
        exact ⟨by simpa [Comment.blankFrom] using hb, by simpa [Comment.modeAfter] using hm⟩
    · obtain ⟨hb, hm⟩ := blankFrom_quoted hq.2 hn.2
      have hend : (c == '"' || c == '\n') = false := by simp [Ne.symm hq.1, Ne.symm hn.1]
      rw [List.cons_append, Comment.blankFrom, Comment.modeAfter, hend, if_neg Bool.false_ne_true,
        hb, hm]
      · exact ⟨rfl, rfl⟩
      · exact fun _ _ h => absurd h hc
      · exact fun _ _ h => absurd h hc

theorem lines_of_not_mem {t : Text} (h : '\n' ∉ t) : Text.lines (t ++ ['\n']) = [t ++ ['\n']] := by
  induction t with
  | nil => rfl
  | cons c t ih =>
    simp only [List.mem_cons, not_or] at h
    have hc : (c == '\n') = false := by simp [Ne.symm h.1]
    rw [List.cons_append, Text.lines, hc, if_neg Bool.false_ne_true, ih h.2]

theorem joinLongEnds_of_not_mem {t : Text} (h : '\n' ∉ t) :
    joinLongEnds (t ++ ['"', '\n']) = t ++ ['"', '\n'] := by
  induction t with
  | nil => decide
  | cons c t ih =>
    simp only [List.mem_cons, not_or] at h
    rw [List.cons_append, joinLongEnds, ih h.2]
    rintro r - hr
    cases t with
    | nil => cases hr
    | cons d t =>
      cases t with
      | nil => cases hr
      | cons d' t => simp_all

theorem joinShortEnds_of_not_mem {t : Text} (h : '\n' ∉ t) :
    joinShortEnds (t ++ ['"', '\n']) = t ++ ['"', '\n'] := by
  induction t with
  | nil => decide
  | cons c t ih =>
    simp only [List.mem_cons, not_or] at h
    rw [List.cons_append, joinShortEnds, ih h.2]
    rintro r - hr
    cases t with
    | nil => cases hr
    | cons d t => simp_all

theorem isContinued_append {t : Text} {c : Char} (hn : c ≠ '\n') (hr : c ≠ '\r') :
    isContinued (t ++ [c] ++ ['\n']) = (c == '\\') := by
  have hdrop : dropLineEnd (t ++ [c] ++ ['\n']) = t ++ [c] := by
    rw [dropLineEnd, List.reverse_append, List.reverse_append]
    simp [hn, hr]
  rw [isContinued, hdrop, List.getLast?_concat]
  rfl

theorem codeLines_append_of_line {t : Text} (hn : '\n' ∉ t)
    (hb : Comment.blankFrom .code (t ++ ['\n']) = t ++ ['\n'])
    (hm : Comment.modeAfter .code (t ++ ['\n']) = .code) (u : Text) :
    codeLines (t ++ ['\n'] ++ u) = (t ++ ['\n']) :: codeLines u := by
  have hended : Text.Ended (t ++ ['\n']) := by
    intro c hc
    rw [List.getLast?_append] at hc
    cases hc
    rfl
  rw [codeLines, Comment.blank, Comment.blankFrom_append .code hended.clean, hm, hb,
    Text.lines_append hended, lines_of_not_mem hn]
  rfl

section IncludeLine

variable {f : Text}

theorem ofCommand_includeLine (hn : '\n' ∉ f) :
    Directive.ofCommand (.ofLines [includeLine f]) = .includeFile ('"' :: f ++ ['"']) := by
  have hn' : '\n' ∉ "include \"".toList ++ f := by
    simp [hn]
  have htext : Command.ofLines [includeLine f] = ⟨"include \"".toList ++ f ++ ['"']⟩ := by
    have hdrop : (Text.trimStart [includeLine f].flatten).drop 1 =
        "include \"".toList ++ f ++ ['"', '\n'] := by
      rw [List.flatten_singleton]
      rfl
    rw [Command.ofLines, hdrop, joinLongEnds_of_not_mem hn', joinShortEnds_of_not_mem hn',
      Text.trim]
    have hstart : ∀ r : Text,
        Text.trimStart ("include \"".toList ++ r) = "include \"".toList ++ r := fun r => rfl
    rw [List.append_assoc, hstart, ← List.append_assoc, Text.trimEnd_append (by decide)]
    rfl
  have hoperands : Text.trim (' ' :: '"' :: (f ++ ['"'])) = '"' :: (f ++ ['"']) := by
    have hstart : Text.trimStart (' ' :: '"' :: (f ++ ['"'])) = '"' :: f ++ ['"'] := rfl
    rw [Text.trim, hstart, Text.trimEnd_append (by decide)]
    rfl
  rw [htext]
  exact congrArg Directive.includeFile hoperands

theorem isLine_includeLine (hq : '"' ∉ f) (hn : '\n' ∉ f) :
    IsLine (includeLine f) (.includeFile ('"' :: f ++ ['"'])) := by
  have heq : includeLine f = "#include \"".toList ++ f ++ ['"'] ++ ['\n'] :=
    (List.append_assoc _ ['"'] ['\n']).symm
  obtain ⟨hb, hm⟩ := blankFrom_quoted hq hn
  have hclean : Comment.Clean "#include \"".toList := by
    intro c hc
    cases hc
    decide
  refine ⟨?_, rfl, ?_, ofCommand_includeLine hn⟩
  · rw [heq]
    refine codeLines_append_of_line ?_ ?_ ?_
    · simp [hn]
    · rw [List.append_assoc, List.append_assoc, Comment.blankFrom_append _ hclean]
      exact congrArg _ hb
    · rw [List.append_assoc, List.append_assoc, Comment.modeAfter_append _ hclean]
      exact hm
  · rw [heq, isContinued_append (by decide) (by decide)]
    rfl

theorem isLine_pragmaLine : IsLine pragmaLine .ignored :=
  ⟨codeLines_append_of_line (t := "#pragma".toList) (by decide) (by decide) (by decide), rfl,
    by decide, by decide⟩

theorem includeName?_quoted (hq : '"' ∉ f) :
    Directive.includeName? ('"' :: f ++ ['"']) = some (String.ofList f) := by
  rw [List.cons_append, Directive.includeName?, Directive.closedBy?, Text.cut?_of_notMem hq]
  rfl

end IncludeLine

/-! ### Inclusion -/

namespace Preprocessed

variable {load : String → Option Text} {name : Option String} {f t : Text} {e : Entry} {s : State}

theorem ok_bind (s : State) (k : State → Except Stop State) :
    ((Except.ok s : Except Stop State) >>= k) = k s := rfl

theorem step_pragma (descend : Descend) (offset : Nat) :
    step load descend e s (.directive offset (.ofLines [pragmaLine])) = .ok s := by
  rw [step, isLine_pragmaLine.directive, regroup_of_plain rfl]
  exact ite_self _

theorem step_include (hq : '"' ∉ f) (hn : '\n' ∉ f) (hload : load (String.ofList f) = some t)
    (ha : s.groups.isActive = true) (offset : Nat) :
    ∃ entry, entry.file.text = t ∧
      step load (descend load maxIncludeDepth) e s
          (.directive offset (.ofLines [includeLine f])) =
        (runFile load (maxIncludeDepth - 1) entry (s.enter entry) >>= fun s =>
          .ok (s.emit [⟨['\n'], .inserted e.index offset⟩])) := by
  have hdescend : descend load maxIncludeDepth = some (runFile load (maxIncludeDepth - 1)) := rfl
  refine ⟨⟨s.files.length, ⟨some (String.ofList f), t⟩⟩, rfl, ?_⟩
  rw [step, (isLine_includeLine hq hn).directive, regroup_of_plain rfl, hdescend]
  simp only [ha, if_true, perform, includeFile, includeName?_quoted hq, hload]
  rfl

section Parts

variable {depth : Nat} {front : Text}

/-- A text in which a directive stands on a line between two parts is run part by part. -/
theorem runItems_split (load : String → Option Text) (depth : Nat) (e : Entry) (s : State)
    {l : Text} {d : Directive} (hfront : Complete front) (hl : IsLine l d) (offset : Nat)
    (back : Text) :
    runItems load depth e s (Item.ofLines offset (codeLines (front ++ (l ++ back)))) =
      runItems load depth e s (Item.ofLines offset (codeLines front)) >>= fun s =>
        step load (descend load depth) e s
            (.directive (offsetAfter offset front (l.takeWhile isSpace)) (.ofLines [l])) >>= fun s =>
          runItems load depth e s
            (Item.ofLines (offsetAfter offset front l) (codeLines back)) := by
  rw [hfront.ofLines_append hl, runItems_append]
  rfl

theorem runItems_pragma (hfront : Complete front) (offset : Nat) (back : Text) :
    runItems load depth e s (Item.ofLines offset (codeLines (front ++ (pragmaLine ++ back)))) =
      runItems load depth e s (Item.ofLines offset (codeLines front)) >>= fun s =>
        runItems load depth e s
          (Item.ofLines (offsetAfter offset front pragmaLine) (codeLines back)) := by
  rw [runItems_split load depth e s hfront isLine_pragmaLine]
  simp only [step_pragma]
  rfl

end Parts

/-- The state in which the run of the main file `text` is after the part `front` of it. -/
def stateAfter (load : String → Option Text) (name : Option String) (text front : Text) :
    Except Stop State :=
  runItems load maxIncludeDepth (mainEntry name text) (startState name text)
    (Item.ofLines 0 (codeLines front))

/-- The end of the run of a main file. -/
def finish (name : Option String) (text : Text) (s : State) : Except Stop State :=
  if s.groups.isEmpty then .ok s else s.fail (mainEntry name text) (Text.size text) .groupNotClosed

theorem runMain_eq_bind (load : String → Option Text) (name : Option String) (text : Text) :
    runMain load name text = stateAfter load name text text >>= finish name text :=
  runMain_eq load name text

theorem Follows.finish {x x' : Text} {s s' : State} (h : Alike x x' s s') (text text' : Text) :
    Follows x x' (Preprocessed.finish name text s) (Preprocessed.finish name text' s') := by
  rw [Preprocessed.finish, Preprocessed.finish, h.groups]
  split
  · exact .ok h
  · exact .failed rfl

/-- The text with the line that includes the file between the two others. -/
def including (f front back : Text) : Text := front ++ (includeLine f ++ back)

/-- The text with the file itself between the two others, set off by lines that have no
effect. -/
def inlining (t front back : Text) : Text := front ++ (pragmaLine ++ (t ++ (pragmaLine ++ back)))

section Main

variable {front back : Text} {m m' : Text}

/-- The same text in front leads to states that are alike. -/
theorem alike_of_front (hs : stateAfter load name m front = .ok s) (m' : Text) :
    ∃ s', stateAfter load name m' front = .ok s' ∧ Alike [] [] s s' := by
  have hstart : Alike [] [] (startState name m) (startState name m') := ⟨rfl, rfl, [], rfl, rfl⟩
  have hrun : Follows [] [] (stateAfter load name m front) (stateAfter load name m' front) :=
    .runItems hstart (Nat.le_refl _) rfl
  rw [hs] at hrun
  cases hr : stateAfter load name m' front with
  | error stop =>
    rw [hr] at hrun
    nomatch hrun
  | ok s' =>
    rw [hr] at hrun
    cases hrun with
    | ok h => exact ⟨s', rfl, h⟩

/-- After the file, the two runs go on alike, with a line feed more in the first one. -/
theorem Alike.after_include {s s' : State} (h : Alike [] [] s s') (file offset : Nat) :
    Alike (s'.output.code ++ ['\n']) s'.output.code (s.emit [⟨['\n'], .inserted file offset⟩])
      s' := by
  obtain ⟨y, hy, hy'⟩ := h.code
  refine ⟨h.macros, h.groups, [], ?_, by simp⟩
  rw [State.code_emit, hy, hy', List.append_nil]
  rfl

/-- With the `#include`, the text in front of it is run, then the file, and then the text
behind it, after a line feed. -/
theorem stateAfter_including (back : Text) (hq : '"' ∉ f) (hn : '\n' ∉ f)
    (hload : load (String.ofList f) = some t) (hfront : Complete front)
    (hs : stateAfter load name (including f front back) front = .ok s)
    (ha : s.groups.isActive = true) :
    ∃ entry offset, entry.file.text = t ∧
      stateAfter load name (including f front back) (including f front back) =
        runFile load (maxIncludeDepth - 1) entry (s.enter entry) >>= fun s =>
          runItems load maxIncludeDepth (mainEntry name (including f front back))
            (s.emit [⟨['\n'], .inserted 0 offset⟩])
            (Item.ofLines (offsetAfter 0 front (includeLine f)) (codeLines back)) := by
  obtain ⟨entry, hentry, hstep⟩ := step_include (e := mainEntry name (including f front back))
    hq hn hload ha (offsetAfter 0 front ((includeLine f).takeWhile isSpace))
  refine ⟨entry, offsetAfter 0 front ((includeLine f).takeWhile isSpace), hentry, ?_⟩
  have hsplit := runItems_split load maxIncludeDepth (mainEntry name (including f front back))
    (startState name (including f front back)) hfront (isLine_includeLine hq hn) 0 back
  rw [stateAfter] at hs
  rw [hs, ok_bind, hstep] at hsplit
  refine hsplit.trans ?_
  cases runFile load (maxIncludeDepth - 1) entry (s.enter entry) <;> rfl

/-- With the file in its place, the three are run one after the other. -/
theorem stateAfter_inlining (hfront : Complete front) (ht : Complete t)
    (hs : stateAfter load name (inlining t front back) front = .ok s) :
    stateAfter load name (inlining t front back) (front ++ (pragmaLine ++ t)) =
        runItems load maxIncludeDepth (mainEntry name (inlining t front back)) s
          (Item.ofLines (offsetAfter 0 front pragmaLine) (codeLines t)) ∧
      stateAfter load name (inlining t front back) (inlining t front back) =
        stateAfter load name (inlining t front back) (front ++ (pragmaLine ++ t)) >>= fun s =>
          runItems load maxIncludeDepth (mainEntry name (inlining t front back)) s
            (Item.ofLines (offsetAfter (offsetAfter 0 front pragmaLine) t pragmaLine)
              (codeLines back)) := by
  have hsplit : ∀ u, stateAfter load name (inlining t front back) (front ++ (pragmaLine ++ u)) =
      runItems load maxIncludeDepth (mainEntry name (inlining t front back)) s
        (Item.ofLines (offsetAfter 0 front pragmaLine) (codeLines u)) := by
    intro u
    rw [stateAfter] at hs ⊢
    rw [runItems_pragma hfront, hs, ok_bind]
  refine ⟨hsplit t, ?_⟩
  rw [hsplit t]
  exact (hsplit (t ++ (pragmaLine ++ back))).trans (runItems_pragma ht _ back)

/-- Both runs fail in the file, or they go on alike after it. -/
theorem follows_include (hq : '"' ∉ f) (hn : '\n' ∉ f)
    (hload : load (String.ofList f) = some t) (hfront : Complete front) (ht : Complete t)
    (hs : stateAfter load name (including f front back) front = .ok s)
    (ha : s.groups.isActive = true) :
    ∃ x x', Follows x x' (runMain load name (including f front back))
        (runMain load name (inlining t front back)) ∧
      ∀ u, runMain load name (including f front back) = .ok u →
        ∃ s', stateAfter load name (inlining t front back) (front ++ (pragmaLine ++ t)) = .ok s' ∧
          x = s'.output.code ++ ['\n'] ∧ x' = s'.output.code := by
  obtain ⟨s', hs', halike⟩ := alike_of_front hs (inlining t front back)
  obtain ⟨hfront', hinlining⟩ := stateAfter_inlining hfront ht hs'
  obtain ⟨entry, offset, hentry, hincluding⟩ :=
    stateAfter_including back hq hn hload hfront hs ha
  have hfile : Follows [] [] (runFile load (maxIncludeDepth - 1) entry (s.enter entry))
      (stateAfter load name (inlining t front back) (front ++ (pragmaLine ++ t))) := by
    have hstart : Alike [] [] (s.enter entry) s' := ⟨halike.macros, halike.groups, halike.code⟩
    rw [hfront', runFile_eq, SourceFile.code, hentry]
    exact .runItems hstart (Nat.sub_le _ _) (Item.map_content_ofLines _ _ _)
  rw [runMain_eq_bind, runMain_eq_bind, hinlining, hincluding]
  generalize runFile load (maxIncludeDepth - 1) entry (s.enter entry) = r at hfile
  generalize stateAfter load name (inlining t front back) (front ++ (pragmaLine ++ t)) = r' at hfile
  cases hfile with
  | failed hr =>
    refine ⟨[], [], .failed hr, fun u hu => ?_⟩
    cases hu
  | exceeded hr =>
    refine ⟨[], [], .exceeded hr, fun u hu => ?_⟩
    cases hu
  | @ok u u' hu =>
    refine ⟨_, _, ?_, fun v _ => ⟨u', rfl, rfl, rfl⟩⟩
    refine Follows.bind (.runItems (hu.after_include 0 offset) (Nat.le_refl _) ?_) ?_
    · exact Item.map_content_ofLines _ _ _
    · exact fun v v' hv => .finish hv _ _

end Main

/-- **An `#include` runs as the text that it includes.**  A run of the text with the
directive succeeds just if a run of the text with the file in its place does, and they fail
for the same reason.  If they succeed, the outputs are the same up to a line feed after the
output of the file. -/
theorem run_include (load : String → Option Text) (name : Option String) (f front t back : Text)
    (s : State) (hq : '"' ∉ f) (hn : '\n' ∉ f) (hload : load (String.ofList f) = some t)
    (hfront : Complete front) (ht : Complete t)
    (hs : stateAfter load name (including f front back) front = .ok s)
    (ha : s.groups.isActive = true)
    (hdepth : ∀ error included, (run load name (including f front back)).result = .error error →
      error.reason ≠ .includeDepthExceeded included) :
    (∃ p p' s' y, (run load name (including f front back)).result = .ok p ∧
      (run load name (inlining t front back)).result = .ok p' ∧
      stateAfter load name (inlining t front back) (front ++ (pragmaLine ++ t)) = .ok s' ∧
      p.code = s'.output.code ++ '\n' :: y ∧ p'.code = s'.output.code ++ y) ∨
    ∃ error error', (run load name (including f front back)).result = .error error ∧
      (run load name (inlining t front back)).result = .error error' ∧
      error.reason = error'.reason := by
  obtain ⟨x, x', hfollows, hx⟩ := follows_include hq hn hload hfront ht hs ha
  rw [run] at hdepth ⊢
  rw [run]
  generalize runMain load name (including f front back) = r at hfollows hx hdepth
  generalize runMain load name (inlining t front back) = r' at hfollows
  cases hfollows with
  | @ok u u' h =>
    obtain ⟨s', hs', rfl, rfl⟩ := hx u rfl
    obtain ⟨y, hy, hy'⟩ := h.code
    refine .inl ⟨_, _, s', y, rfl, rfl, hs', ?_, hy'⟩
    rw [List.append_assoc] at hy
    exact hy
  | failed h => exact .inr ⟨_, _, rfl, rfl, h⟩
  | exceeded h => exact absurd h (hdepth _ _ rfl)

/-- The file closes a group that is open in front of the directive, and defines a macro that
is used behind it. -/
theorem run_include_group :
    ∃ p p' s' y, (run (fun _ => some "x\n#endif\n#define A b\n".toList) none
          (including ['f'] "#if 1\n".toList "A\n".toList)).result = .ok p ∧
      (run (fun _ => some "x\n#endif\n#define A b\n".toList) none
          (inlining "x\n#endif\n#define A b\n".toList "#if 1\n".toList
            "A\n".toList)).result = .ok p' ∧
      stateAfter (fun _ => some "x\n#endif\n#define A b\n".toList) none
          (inlining "x\n#endif\n#define A b\n".toList "#if 1\n".toList "A\n".toList)
          ("#if 1\n".toList ++ (pragmaLine ++ "x\n#endif\n#define A b\n".toList)) = .ok s' ∧
      p.code = s'.output.code ++ '\n' :: y ∧ p'.code = s'.output.code ++ y ∧
      p.code = "x\n\nb\n".toList := by
  have htext : including ['f'] "#if 1\n".toList "A\n".toList =
      "#if 1\n#include \"f\"\nA\n".toList := by decide
  have hcode : (run (fun _ => some "x\n#endif\n#define A b\n".toList) none
      "#if 1\n#include \"f\"\nA\n".toList).result.toOption.map (·.code) =
      some "x\n\nb\n".toList := by cbv
  have hok : ∀ error, (run (fun _ => some "x\n#endif\n#define A b\n".toList) none
      (including ['f'] "#if 1\n".toList "A\n".toList)).result ≠ .error error := by
    intro error he
    rw [htext] at he
    rw [he] at hcode
    cases hcode
  have hfront : Complete "#if 1\n".toList := ⟨by rintro c ⟨⟩; rfl, by decide, by cbv⟩
  have ht : Complete "x\n#endif\n#define A b\n".toList := ⟨by rintro c ⟨⟩; rfl, by decide, by cbv⟩
  have hs : stateAfter (fun _ => some "x\n#endif\n#define A b\n".toList) none
      (including ['f'] "#if 1\n".toList "A\n".toList) "#if 1\n".toList =
      .ok { files := [⟨none, "#if 1\n#include \"f\"\nA\n".toList⟩]
            groups := [⟨true, true, true, false⟩] } := by
    rw [htext]
    cbv
  rcases run_include _ none ['f'] _ _ "A\n".toList _ (by decide) (by decide) rfl hfront ht hs rfl
    (fun error _ he => absurd he (hok error)) with
    ⟨p, p', s', y, hp, hp', hs', hy, hy'⟩ | ⟨error, -, he, -⟩
  · refine ⟨p, p', s', y, hp, hp', hs', hy, hy', ?_⟩
    rw [htext] at hp
    rw [hp] at hcode
    exact Option.some.inj hcode
  · exact absurd he (hok error)

end Preprocessed

end PixelWrap
