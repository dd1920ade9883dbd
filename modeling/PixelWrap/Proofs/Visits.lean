import Mathlib.Tactic.Common
import PixelWrap.Preprocessed.Run
import PixelWrap.Proofs.Offsets

/-!
# The course of a run

A run goes through the items of a file in order, and through those of an included file
in between.  Each item is visited in some state, and what holds of a run is shown by
looking at its visits: what one item does to the state, and what that keeps.

## Main definitions

* `Preprocessed.Visit`: an item and the state in which it is run.
* `Preprocessed.Loads`: an item loads a file.
* `Preprocessed.Visits`, `Preprocessed.Visited`: the visits of a run.
* `Preprocessed.Stepped`: what running one item does to the files and the output.

## Main results

* `Preprocessed.runItems_induction`: induction on a run.
* `Preprocessed.stepped_of_step`: there is nothing else that an item does to them.
* `Preprocessed.Visits.wellPlaced`: the item of a visit belongs to a loaded file.
* `Preprocessed.invariant_of_visits`: what each visit keeps, the run keeps.
* `Preprocessed.invariant_of_run`: the same for the run of a main file and what it gives.
-/

namespace PixelWrap.Preprocessed

variable {load : String → Option Text} {depth : Nat} {e entry : Entry} {s s' : State}

/-! ### Visits -/

/-- How an `#include` runs another file where includes may be nested `depth` deep. -/
def descend (load : String → Option Text) : Nat → Descend
  | 0 => none
  | depth + 1 => some (runFile load depth)

/-- Runs the items of a file one after the other. -/
def runItems (load : String → Option Text) (depth : Nat) (e : Entry) (s : State)
    (is : List Item) : Except Stop State :=
  is.foldlM (step load (descend load depth) e) s

theorem runFile_eq (load : String → Option Text) (depth : Nat) (e : Entry) (s : State) :
    runFile load depth e s = runItems load depth e s (Item.ofText e.file.code) := by
  cases depth <;> rfl

/-- A moment of a run: an item that is run in a state. -/
structure Visit where
  /-- How deeply includes may still be nested. -/
  depth : Nat
  /-- The file of the item. -/
  entry : Entry
  /-- The state in front of the item. -/
  state : State
  /-- The item. -/
  item : Item

/-- The item is an `#include` in active text that loads the file. -/
inductive Loads (load : String → Option Text) (s : State) : Item → Entry → Prop
  | mk {offset : Nat} {command : Command} {operands text : Text} {name : String} :
      s.groups.isActive = true → Directive.ofCommand command = .includeFile operands →
      Directive.includeName? operands = some name → load name = some text →
      Loads load s (.directive offset command) ⟨s.files.length, ⟨some name, text⟩⟩

/-- The state in which a file that has just been loaded is run. -/
def State.enter (s : State) (entry : Entry) : State :=
  { s with files := s.files ++ [entry.file] }

/-- `Visits load depth e s is v`: running the items `is` of the file `e` from the state
`s` comes to the visit `v`, here or in a file that one of them includes. -/
inductive Visits (load : String → Option Text) :
    Nat → Entry → State → List Item → Visit → Prop
  /-- The first item is visited. -/
  | here (depth : Nat) (e : Entry) (s : State) (i : Item) (is : List Item) :
      Visits load depth e s (i :: is) ⟨depth, e, s, i⟩
  /-- The items after the first one are visited if that does not fail. -/
  | next {depth : Nat} {e : Entry} {s s' : State} {i : Item} {is : List Item} {v : Visit} :
      step load (descend load depth) e s i = .ok s' → Visits load depth e s' is v →
      Visits load depth e s (i :: is) v
  /-- The items of a file that the first one includes are visited. -/
  | inside {depth : Nat} {e entry : Entry} {s : State} {i : Item} {is : List Item} {v : Visit} :
      Loads load s i entry →
      Visits load depth entry (s.enter entry) (Item.ofText entry.file.code) v →
      Visits load (depth + 1) e s (i :: is) v

/-- The entry of a main file. -/
def mainEntry (name : Option String) (text : Text) : Entry := ⟨0, ⟨name, text⟩⟩

/-- The state at the start of a run. -/
def startState (name : Option String) (text : Text) : State :=
  { files := [(mainEntry name text).file] }

/-- The run of a main file comes to the visit. -/
def Visited (load : String → Option Text) (name : Option String) (text : Text) (v : Visit) : Prop :=
  Visits load maxIncludeDepth (mainEntry name text) (startState name text)
    (Item.ofText (mainEntry name text).file.code) v

theorem bind_eq_ok {ε α β : Type} {x : Except ε α} {f : α → Except ε β} {b : β} :
    (x >>= f) = .ok b ↔ ∃ a, x = .ok a ∧ f a = .ok b := by
  cases x with
  | error e => simp [bind, Except.bind]
  | ok a => simp [bind, Except.bind]

theorem runItems_cons (i : Item) (is : List Item) :
    runItems load depth e s (i :: is) =
      step load (descend load depth) e s i >>= fun s' => runItems load depth e s' is :=
  List.foldlM_cons

/-- **Induction on a run.**  What holds behind the first item is carried over to the run.  It is
known of all runs with a smaller depth, as an included file is run in that way. -/
theorem runItems_induction {P : Nat → Entry → State → List Item → State → Prop}
    (nil : ∀ depth e s, P depth e s [] s)
    (cons : ∀ {depth : Nat} {e : Entry} {s s₁ s' : State} {i : Item} {is : List Item},
      (∀ {below : Nat} {entry : Entry} {t t' : State} {js : List Item}, below < depth →
        runItems load below entry t js = .ok t' → P below entry t js t') →
      step load (descend load depth) e s i = .ok s₁ → P depth e s₁ is s' →
      P depth e s (i :: is) s')
    {is : List Item} (h : runItems load depth e s is = .ok s') : P depth e s is s' := by
  induction depth using Nat.strongRecOn generalizing e s s' is with
  | ind depth ihd =>
    induction is generalizing s with
    | nil =>
      cases h
      exact nil ..
    | cons i is ih =>
      rw [runItems_cons] at h
      obtain ⟨s₁, hstep, hrun⟩ := bind_eq_ok.mp h
      exact cons (fun hlt => ihd _ hlt) hstep (ih hrun)

theorem runMain_eq (load : String → Option Text) (name : Option String) (text : Text) :
    runMain load name text =
      runItems load maxIncludeDepth (mainEntry name text) (startState name text)
          (Item.ofText (mainEntry name text).file.code) >>= fun s =>
        if s.groups.isEmpty then .ok s
        else s.fail (mainEntry name text) (Text.size text) .groupNotClosed := by
  rw [← runFile_eq]
  rfl

/-- A run that gives a text has gone through the items of the main file. -/
theorem exists_of_run {name : Option String} {text : Text} {t : Preprocessed}
    (h : (run load name text).result = .ok t) :
    ∃ s, runItems load maxIncludeDepth (mainEntry name text) (startState name text)
      (Item.ofText (mainEntry name text).file.code) = .ok s ∧ ofState s = t := by
  unfold run at h
  split at h
  · next s hs =>
    cases h
    rw [runMain_eq] at hs
    obtain ⟨s', hrun, hend⟩ := bind_eq_ok.mp hs
    split at hend
    · cases hend
      exact ⟨s, hrun, rfl⟩
    · cases hend
  · cases h

/-! ### What one item does -/

/-- What running an item does to the files and to the output. -/
inductive Stepped (load : String → Option Text) (depth : Nat) (e : Entry) (s : State) :
    Item → State → Prop
  /-- Neither changes. -/
  | quiet {i : Item} {s' : State} : s'.files = s.files → s'.output = s.output →
      Stepped load depth e s i s'
  /-- A region is put out. -/
  | stored {offset : Nat} {text : Text} {pieces : List Macro.Piece} :
      s.groups.isActive = true → s.macros.substitute text = .ok pieces →
      Stepped load depth e s (.region offset text) (s.emit (chunksOf e.index offset pieces))
  /-- A file is run, and a line feed is put out after it. -/
  | included {below offset : Nat} {command : Command} {entry : Entry} {s' : State} :
      depth = below + 1 → Loads load s (.directive offset command) entry →
      runFile load below entry (s.enter entry) = .ok s' →
      Stepped load depth e s (.directive offset command)
        (s'.emit [⟨['\n'], .inserted e.index offset⟩])

theorem stepped_of_includeFile {offset : Nat} {command : Command} {operands : Text}
    (ha : s.groups.isActive = true) (hd : Directive.ofCommand command = .includeFile operands)
    (h : includeFile load (descend load depth) e offset operands s = .ok s') :
    Stepped load depth e s (.directive offset command) s' := by
  unfold includeFile at h
  split at h
  · cases h
  · next name hn =>
    cases depth with
    | zero => cases h
    | succ below =>
      simp only [descend] at h
      split at h
      · cases h
        exact .quiet rfl rfl
      · next text hl =>
        obtain ⟨s₁, hr, hs⟩ := bind_eq_ok.mp h
        cases hs
        exact .included rfl (.mk ha hd hn hl) hr

theorem stepped_of_defineMacro {i : Item} {offset : Nat} {operands : Text}
    (h : defineMacro e offset operands s = .ok s') : Stepped load depth e s i s' := by
  unfold defineMacro at h
  split at h
  · cases h
  · cases h
    split <;> exact .quiet rfl rfl

/-- **An item does nothing else to the files and to the output.** -/
theorem stepped_of_step {i : Item} (h : step load (descend load depth) e s i = .ok s') :
    Stepped load depth e s i s' := by
  cases i with
  | region offset text =>
    rw [step] at h
    split at h
    · next ha =>
      unfold storeRegion at h
      split at h
      · next pieces hp =>
        cases h
        exact .stored ha hp
      · cases h
    · cases h
      exact .quiet rfl rfl
  | directive offset command =>
    rw [step] at h
    split at h
    · cases h
    · next gs hg =>
      split at h
      · next ha =>
        cases hd : Directive.ofCommand command with
        | includeFile operands =>
          rw [hd] at h hg
          cases hg
          exact stepped_of_includeFile ha hd h
        | define operands =>
          rw [hd] at h hg
          cases hg
          exact stepped_of_defineMacro h
        | undefine name =>
          rw [hd, perform] at h
          split at h <;> cases h
          exact .quiet rfl rfl
        | unknown name =>
          rw [hd] at h
          cases h
        | _ =>
          rw [hd] at h
          cases h
          exact .quiet rfl rfl
      · cases h
        exact .quiet rfl rfl

/-! ### What a run keeps -/

/-- The files that have been loaded stay, in the order of loading. -/
theorem files_isPrefix {is : List Item} (h : runItems load depth e s is = .ok s') :
    s.files <+: s'.files := by
  refine runItems_induction (P := fun _ _ s _ s' => s.files <+: s'.files)
    (fun _ _ _ => List.prefix_rfl) (fun hbelow hstep hrest => ?_) h
  refine List.IsPrefix.trans ?_ hrest
  cases stepped_of_step hstep with
  | quiet hf _ => exact ⟨[], by rw [hf, List.append_nil]⟩
  | stored => exact List.prefix_rfl
  | included hd hl hrun =>
    subst hd
    rw [runFile_eq] at hrun
    exact (List.prefix_append _ _).trans (hbelow (Nat.lt_succ_self _) hrun)

/-- The item of a visit belongs to a file that has been loaded under its number. -/
structure Visit.WellPlaced (v : Visit) : Prop where
  registered : v.state.files[v.entry.index]? = some v.entry.file
  mem : v.item ∈ Item.ofText v.entry.file.code

theorem getElem?_of_isPrefix {α : Type} {l l' : List α} {n : Nat} {a : α} (hl : l <+: l')
    (h : l[n]? = some a) : l'[n]? = some a := by
  obtain ⟨r, rfl⟩ := hl
  rw [List.getElem?_append_left (List.getElem?_eq_some_iff.mp h).1]
  exact h

/-- **The items that are visited belong to loaded files.** -/
theorem Visits.wellPlaced {is : List Item} {v : Visit} (h : Visits load depth e s is v)
    (he : s.files[e.index]? = some e.file) (his : ∀ i ∈ is, i ∈ Item.ofText e.file.code) :
    v.WellPlaced := by
  induction h with
  | here depth e s i is => exact ⟨he, his i (List.mem_cons_self ..)⟩
  | @next depth e s s' i is v hs _ ih =>
    have hstep : runItems load depth e s [i] = .ok s' := by
      rw [runItems_cons, hs]
      rfl
    exact ih (getElem?_of_isPrefix (files_isPrefix hstep) he)
      fun j hj => his j (List.mem_cons_of_mem _ hj)
  | inside hl _ ih =>
    cases hl with
    | mk => exact ih (by simp [State.enter]) fun _ hi => hi

theorem Visited.wellPlaced {name : Option String} {text : Text} {v : Visit}
    (h : Visited load name text v) : v.WellPlaced :=
  Visits.wellPlaced h rfl fun _ hi => hi

/-- **What each visit keeps, the run keeps.**  `P` is what is kept, of the files and the
output alone, and `R` is what is known of the visits of the run. -/
theorem invariant_of_visits {P : State → Prop} {R : Visit → Prop}
    (quiet : ∀ {s s' : State}, P s → s'.files = s.files → s'.output = s.output → P s')
    (stored : ∀ {v : Visit} {offset : Nat} {text : Text} {pieces : List Macro.Piece}, R v →
      P v.state → v.item = .region offset text → v.state.groups.isActive = true →
      v.state.macros.substitute text = .ok pieces →
      P (v.state.emit (chunksOf v.entry.index offset pieces)))
    (entered : ∀ {v : Visit} {entry : Entry}, R v → P v.state → Loads load v.state v.item entry →
      P (v.state.enter entry))
    (left : ∀ {v : Visit} {offset : Nat} {command : Command} {entry : Entry} {s' : State}, R v →
      P s' → v.state.files <+: s'.files → v.item = .directive offset command →
      Loads load v.state v.item entry →
      P (s'.emit [⟨['\n'], .inserted v.entry.index offset⟩]))
    {is : List Item} (hR : ∀ v, Visits load depth e s is v → R v) (hs : P s)
    (h : runItems load depth e s is = .ok s') : P s' := by
  refine runItems_induction (P := fun depth e s is s' =>
    (∀ v, Visits load depth e s is v → R v) → P s → P s') (fun _ _ _ _ hs => hs) ?_ h hR hs
  intro depth e s s₁ s' i is hbelow hstep hrest hR hs
  have hv : R ⟨depth, e, s, i⟩ := hR _ (.here ..)
  refine hrest (fun v hv => hR v (.next hstep hv)) ?_
  cases stepped_of_step hstep with
  | quiet hf ho => exact quiet hs hf ho
  | stored ha hp => exact stored hv hs rfl ha hp
  | included hd hl hrun =>
    subst hd
    rw [runFile_eq] at hrun
    have henter := entered hv hs hl
    refine left hv ?_ ((List.prefix_append _ _).trans (files_isPrefix hrun)) rfl hl
    exact hbelow (Nat.lt_succ_self _) hrun (fun v hv => hR v (.inside hl hv)) henter

/-- **What each visit of a run keeps, the text that it gives has.** -/
theorem invariant_of_run {P : List SourceFile → Output → Prop} {name : Option String} {text : Text}
    {t : Preprocessed} (start : P [⟨name, text⟩] {})
    (stored : ∀ {v : Visit} {offset : Nat} {region : Text} {pieces : List Macro.Piece},
      Visited load name text v → P v.state.files v.state.output → v.item = .region offset region →
      v.state.groups.isActive = true → v.state.macros.substitute region = .ok pieces →
      P v.state.files ((chunksOf v.entry.index offset pieces).foldl Output.push v.state.output))
    (entered : ∀ {files : List SourceFile} {file : SourceFile} {o : Output}, P files o →
      P (files ++ [file]) o)
    (left : ∀ {v : Visit} {offset : Nat} {command : Command} {entry : Entry}
      {files : List SourceFile} {o : Output}, Visited load name text v → P files o →
      v.state.files <+: files → v.item = .directive offset command →
      Loads load v.state v.item entry →
      P files ([⟨['\n'], .inserted v.entry.index offset⟩].foldl Output.push o))
    (h : (run load name text).result = .ok t) : P t.files t.toOutput := by
  obtain ⟨s, hrun, rfl⟩ := exists_of_run h
  refine invariant_of_visits (P := fun s => P s.files s.output) (R := Visited load name text)
    ?_ stored (fun _ hP _ => entered hP) left (fun _ hv => hv) start hrun
  intro s s' hP hf ho
  rw [hf, ho]
  exact hP

end PixelWrap.Preprocessed
