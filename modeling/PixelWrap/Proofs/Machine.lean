import PixelWrap.Proofs.Plain

/-!
# A run as a machine

A run calls itself for each file that is included, and the number of calls that it may still
nest is one of its arguments, so that it ends by construction.  Here the same run is made step
by step: a machine keeps a stack of the files that it is in the middle of, and a counter that
is raised when a file is entered and lowered when it is left.  Only the counter is compared
with the limit.  That the machine stops, that the counter is the height of the stack, and that
it gives what the run gives is shown here, for files that may include each other and
themselves in any way.

## Main definitions

* `Preprocessed.requested?`: the file that an active `#include` names.
* `Preprocessed.Machine`: the stack of files, the counter and the state.
* `Preprocessed.Machine.next`: one step of the machine.
* `Preprocessed.Machine.Reaches`, `Preprocessed.Machine.Ends`: the steps from one machine to
  another, or to the end, with the items that are visited.
* `Preprocessed.Chain`: each text includes the next one.

## Main results

* `Preprocessed.Machine.runsAs_runItems`: the machine does what a run over items does.
* `Preprocessed.Machine.ends_runMain`: it ends like the run of the main file and has the same
  visits.
* `Preprocessed.Machine.Reaches.wellFormed`: the counter is the height of the stack.
* `Preprocessed.includes_bounded`: **includes are nested up to the limit and no deeper, and
  every run ends.**
-/

namespace PixelWrap.Preprocessed

variable {load : String → Option Text} {depth offset : Nat} {e entry : Entry} {s s' : State}
  {i : Item} {file : String}

/-! ### Requests for files -/

/-- The offset of an `#include` in active text, and the file that it names. -/
def requested? (s : State) : Item → Option (Nat × String)
  | .region _ _ => none
  | .directive offset command =>
    if s.groups.isActive then
      match Directive.ofCommand command with
      | .includeFile operands => (Directive.includeName? operands).map (offset, ·)
      | _ => none
    else none

theorem requested?_eq_some (h : requested? s i = some (offset, file)) :
    ∃ command operands, i = .directive offset command ∧ s.groups.isActive = true ∧
      Directive.ofCommand command = .includeFile operands ∧
      Directive.includeName? operands = some file := by
  cases i with
  | region => cases h
  | directive o command =>
    rw [requested?] at h
    split at h
    · next ha =>
      split at h
      · next operands hd =>
        obtain ⟨name, hname, heq⟩ := Option.map_eq_some_iff.mp h
        cases heq
        exact ⟨command, operands, rfl, ha, hd, hname⟩
      · cases h
    · cases h

/-- An active `#include` is run by looking for its file. -/
theorem step_of_requested? (h : requested? s i = some (offset, file)) :
    ∃ operands, Directive.includeName? operands = some file ∧
      ∀ (load : String → Option Text) (descend : Descend) (e : Entry),
        step load descend e s i = includeFile load descend e offset operands s := by
  obtain ⟨command, operands, rfl, ha, hd, hname⟩ := requested?_eq_some h
  refine ⟨operands, hname, fun load descend e => ?_⟩
  rw [step, hd]
  show (if s.groups.isActive then _ else _) = _
  rw [if_pos ha]
  rfl

/-- Nothing but an active `#include` looks for a file. -/
theorem step_of_requested?_eq_none (h : requested? s i = none)
    (load load' : String → Option Text) (descend descend' : Descend) (e : Entry) :
    step load descend e s i = step load' descend' e s i := by
  cases i with
  | region => rfl
  | directive o command =>
    rw [step, step]
    cases hg : regroup s.macros s.groups command (Directive.ofCommand command) with
    | error reason => rfl
    | ok gs =>
      by_cases ha : s.groups.isActive = true
      · simp only [ha, if_true]
        cases hd : Directive.ofCommand command with
        | includeFile operands =>
          rw [requested?, if_pos ha, hd] at h
          have hname := Option.map_eq_none_iff.mp h
          simp only [perform, includeFile, hname]
        | ifHolds | ifDefined | elseIf | otherwise | endIf | define | undefine | message
        | ignored | unknown => rfl
      · simp only [ha, Bool.false_eq_true, if_false]

theorem loads_iff : Loads load s i entry ↔
    ∃ offset file text, requested? s i = some (offset, file) ∧ load file = some text ∧
      entry = ⟨s.files.length, ⟨some file, text⟩⟩ := by
  constructor
  · intro h
    cases h with
    | @mk offset command operands text name ha hd hname hload =>
      refine ⟨offset, name, text, ?_, hload, rfl⟩
      rw [requested?, if_pos ha, hd]
      simp only [hname]
      rfl
  · rintro ⟨offset, file, text, h, hload, rfl⟩
    obtain ⟨command, operands, rfl, ha, hd, hname⟩ := requested?_eq_some h
    exact .mk ha hd hname hload

/-! ### The machine -/

/-- A file that is being run. -/
structure Frame where
  /-- The file. -/
  entry : Entry
  /-- What is left of it. -/
  items : List Item
  /-- What is put out behind it. -/
  after : List Chunk

/-- What a run is in the middle of. -/
structure Machine where
  /-- The file that is being run. -/
  top : Frame
  /-- The files that wait for it, the main file last. -/
  below : List Frame
  /-- The counter. -/
  depth : Nat
  /-- The state. -/
  state : State

namespace Machine

/-- The machine at the start of a run. -/
def start (name : Option String) (text : Text) : Machine :=
  { top := ⟨mainEntry name text, Item.ofText (mainEntry name text).file.code, []⟩
    below := []
    depth := 0
    state := startState name text }

/-- What a step leads to. -/
inductive Move where
  | goesOn (m : Machine)
  | ends (r : Except Stop State)

/-- The end of the main file, where no group may be open. -/
def finish (e : Entry) (s : State) : Except Stop State :=
  if s.groups.isEmpty then .ok s else s.fail e (Text.size e.file.text) .groupNotClosed

/-- The offset of an `#include` and the file that it loads, unless the counter has reached the
limit. -/
def loaded? (load : String → Option Text) (m : Machine) (i : Item) : Option (Nat × Entry) :=
  if m.depth < maxIncludeDepth then
    (requested? m.state i).bind fun (offset, file) =>
      (load file).map fun text => (offset, ⟨m.state.files.length, ⟨some file, text⟩⟩)
  else none

/-- What an `#include` that loads nothing may do.  It is refused where the counter has reached
the limit.  No file is run in it, so that it does not matter what would be done with one. -/
def allowance (m : Machine) : Descend :=
  if m.depth < maxIncludeDepth then some fun _ => .ok else none

/-- Goes on with the next item of the file that is being run. -/
def advance (m : Machine) (is : List Item) (s : State) : Machine :=
  { m with top := { m.top with items := is }, state := s }

/-- Enters a file that the item at the offset loads. -/
def push (m : Machine) (is : List Item) (offset : Nat) (entry : Entry) : Machine :=
  { top := ⟨entry, Item.ofText entry.file.code, [⟨['\n'], .inserted m.top.entry.index offset⟩]⟩
    below := { m.top with items := is } :: m.below
    depth := m.depth + 1
    state := m.state.enter entry }

/-- One step: an item is run, a file is entered, or a file is left. -/
def next (load : String → Option Text) (m : Machine) : Move :=
  match m.top.items with
  | [] =>
    match m.below with
    | [] => .ends (finish m.top.entry m.state)
    | f :: fs => .goesOn ⟨f, fs, m.depth - 1, m.state.emit m.top.after⟩
  | i :: is =>
    match m.loaded? load i with
    | some (offset, entry) => .goesOn (m.push is offset entry)
    | none =>
      match step (fun _ => none) m.allowance m.top.entry m.state i with
      | .ok s => .goesOn (m.advance is s)
      | .error stop => .ends (.error stop)

/-- The item that the machine has come to, as a visit. -/
def visit? (m : Machine) : Option Visit :=
  m.top.items.head?.map fun i => ⟨maxIncludeDepth - m.depth, m.top.entry, m.state, i⟩

/-- The machine gets from `m` to another one, with the visits on the way. -/
inductive Reaches (load : String → Option Text) : Machine → List Visit → Machine → Prop
  | refl (m : Machine) : Reaches load m [] m
  | step {m m₁ m₂ : Machine} {vs : List Visit} : m.next load = .goesOn m₁ → Reaches load m₁ vs m₂ →
      Reaches load m (m.visit?.toList ++ vs) m₂

/-- The machine gets from `m` to an end, with the visits up to there. -/
inductive Ends (load : String → Option Text) : Machine → List Visit → Except Stop State → Prop
  | stop {m : Machine} {r : Except Stop State} : m.next load = .ends r →
      Ends load m m.visit?.toList r
  | step {m m₁ : Machine} {vs : List Visit} {r : Except Stop State} : m.next load = .goesOn m₁ →
      Ends load m₁ vs r → Ends load m (m.visit?.toList ++ vs) r

variable {m m₁ m₂ : Machine} {is : List Item} {us vs : List Visit} {r r' : Except Stop State}

theorem Reaches.trans (h : Reaches load m us m₁) (h' : Reaches load m₁ vs m₂) :
    Reaches load m (us ++ vs) m₂ := by
  induction h with
  | refl => exact h'
  | step hm _ ih =>
    rw [List.append_assoc]
    exact .step hm (ih h')

theorem Reaches.single (h : m.next load = .goesOn m₁) : Reaches load m m.visit?.toList m₁ :=
  List.append_nil m.visit?.toList ▸ .step h (.refl m₁)

theorem Reaches.ends (h : Reaches load m us m₁) (h' : Ends load m₁ vs r) :
    Ends load m (us ++ vs) r := by
  induction h with
  | refl => exact h'
  | step hm _ ih =>
    rw [List.append_assoc]
    exact .step hm (ih h')

/-- **There is one end.** -/
theorem Ends.unique (h : Ends load m us r) (h' : Ends load m vs r') : us = vs ∧ r = r' := by
  induction h generalizing vs with
  | stop hm =>
    cases h' with
    | stop hm' =>
      cases hm.symm.trans hm'
      exact ⟨rfl, rfl⟩
    | step hm' _ => cases hm.symm.trans hm'
  | step hm _ ih =>
    cases h' with
    | stop hm' => cases hm.symm.trans hm'
    | step hm' hrest =>
      cases hm.symm.trans hm'
      obtain ⟨hvs, hr⟩ := ih hrest
      exact ⟨congrArg _ hvs, hr⟩

/-- A machine that gets to an end does not go on forever. -/
theorem Ends.acc (h : Ends load m us r) :
    Acc (fun m' m : Machine => m.next load = .goesOn m') m := by
  induction h with
  | stop hm =>
    refine .intro _ fun m' hm' => ?_
    cases hm.symm.trans hm'
  | step hm _ ih =>
    refine .intro _ fun m' hm' => ?_
    cases hm.symm.trans hm'
    exact ih

/-! ### What a step does -/

theorem loaded?_eq_some {entry : Entry} : m.loaded? load i = some (offset, entry) ↔
    m.depth < maxIncludeDepth ∧ ∃ file text, requested? m.state i = some (offset, file) ∧
      load file = some text ∧ entry = ⟨m.state.files.length, ⟨some file, text⟩⟩ := by
  unfold loaded?
  split
  · next hlt =>
    simp only [Option.bind_eq_some_iff, Option.map_eq_some_iff, Prod.exists, hlt, true_and]
    constructor
    · rintro ⟨offset', file, hr, text, hl, heq⟩
      cases heq
      exact ⟨file, text, hr, hl, rfl⟩
    · rintro ⟨file, text, hr, hl, rfl⟩
      exact ⟨offset, file, hr, text, hl, rfl⟩
  · next hle => simp [hle]

theorem loads_of_loaded? (h : m.loaded? load i = some (offset, entry)) :
    Loads load m.state i entry := by
  obtain ⟨-, file, text, hr, hl, rfl⟩ := loaded?_eq_some.mp h
  exact loads_iff.mpr ⟨offset, file, text, hr, hl, rfl⟩

/-- An item that loads a file is run by running the file. -/
theorem step_of_loaded? (h : m.loaded? load i = some (offset, entry)) (e : Entry) :
    step load (descend load (depth + 1)) e m.state i =
      runFile load depth entry (m.state.enter entry) >>= fun s =>
        .ok (s.emit [⟨['\n'], .inserted e.index offset⟩]) := by
  obtain ⟨-, file, text, hr, hl, rfl⟩ := loaded?_eq_some.mp h
  obtain ⟨operands, hname, hstep⟩ := step_of_requested? hr
  rw [hstep, includeFile, hname]
  simp only [descend, hl]
  rfl

/-- An item that loads none is run as the machine runs it. -/
theorem step_of_loaded?_eq_none (h : m.loaded? load i = none)
    (hdepth : m.depth + depth = maxIncludeDepth) (e : Entry) :
    step load (descend load depth) e m.state i =
      step (fun _ => none) m.allowance e m.state i := by
  cases hr : requested? m.state i with
  | none => exact step_of_requested?_eq_none hr ..
  | some request =>
    obtain ⟨offset, file⟩ := request
    obtain ⟨operands, hname, hstep⟩ := step_of_requested? hr
    rw [hstep, hstep, includeFile, includeFile, hname, allowance]
    by_cases hlt : m.depth < maxIncludeDepth
    · have hload : load file = none := by
        cases hl : load file with
        | none => rfl
        | some text =>
          have hsome := loaded?_eq_some.mpr ⟨hlt, file, text, hr, hl, rfl⟩
          rw [h] at hsome
          cases hsome
      obtain ⟨below, rfl⟩ : ∃ below, depth = below + 1 := ⟨depth - 1, by omega⟩
      simp only [descend, hload, hlt, if_true]
    · obtain rfl : depth = 0 := by omega
      simp only [descend, hlt, if_false]

theorem next_of_loaded? (hitems : m.top.items = i :: is)
    (hl : m.loaded? load i = some (offset, entry)) :
    m.next load = .goesOn (m.push is offset entry) := by
  simp only [next, hitems, hl]

theorem next_of_ok (hitems : m.top.items = i :: is) (hl : m.loaded? load i = none)
    (hs : Preprocessed.step (fun _ => none) m.allowance m.top.entry m.state i = .ok s) :
    m.next load = .goesOn (m.advance is s) := by
  simp only [next, hitems, hl, hs]

theorem next_of_error {stop : Stop} (hitems : m.top.items = i :: is)
    (hl : m.loaded? load i = none)
    (hs : Preprocessed.step (fun _ => none) m.allowance m.top.entry m.state i = .error stop) :
    m.next load = .ends (.error stop) := by
  simp only [next, hitems, hl, hs]

theorem visit?_cons (h : m.top.items = i :: is) :
    m.visit? = some ⟨maxIncludeDepth - m.depth, m.top.entry, m.state, i⟩ := by
  rw [visit?, h]
  rfl

theorem toList_visit? (hdepth : m.depth + depth = maxIncludeDepth)
    (h : m.top.items = i :: is) : m.visit?.toList = [⟨depth, m.top.entry, m.state, i⟩] := by
  rw [visit?_cons h, ← hdepth, Nat.add_sub_cancel_left]
  rfl

theorem visit?_nil (h : m.top.items = []) : m.visit? = none := by
  rw [visit?, h]
  rfl

/-! ### The machine runs items -/

theorem visits_cons_iff {v : Visit} : Visits load depth e s (i :: is) v ↔
    v = ⟨depth, e, s, i⟩ ∨
    (∃ s', step load (descend load depth) e s i = .ok s' ∧ Visits load depth e s' is v) ∨
    ∃ below entry, depth = below + 1 ∧ Loads load s i entry ∧
      Visits load below entry (s.enter entry) (Item.ofText entry.file.code) v := by
  constructor
  · intro h
    cases h with
    | here => exact .inl rfl
    | next hs hv => exact .inr (.inl ⟨_, hs, hv⟩)
    | inside hl hv => exact .inr (.inr ⟨_, _, rfl, hl, hv⟩)
  · rintro (rfl | ⟨s', hs, hv⟩ | ⟨below, entry, rfl, hl, hv⟩)
    · exact .here ..
    · exact .next hs hv
    · exact .inside hl hv

/-- The machine does what running its file gives: it gets to the end of the file, or to an
error. -/
def Does (load : String → Option Text) (m : Machine) (us : List Visit) : Except Stop State → Prop
  | .ok s => Reaches load m us (m.advance [] s)
  | .error stop => Ends load m us (.error stop)

theorem Does.of_reaches (h' : Does load m₁ vs r) (h : Reaches load m us m₁)
    (htop : ∀ s, m₁.advance [] s = m.advance [] s) : Does load m (us ++ vs) r := by
  cases r with
  | ok s =>
    have hall := h.trans h'
    rwa [htop] at hall
  | error stop => exact h.ends h'

/-- The machine does what a run over the items of its file gives, with the same visits. -/
def RunsAs (load : String → Option Text) (depth : Nat) (m : Machine) : Prop :=
  ∃ us, Does load m us (runItems load depth m.top.entry m.state m.top.items) ∧
    ∀ v, v ∈ us ↔ Visits load depth m.top.entry m.state m.top.items v

theorem runsAs_nil (hitems : m.top.items = []) : m.RunsAs load depth := by
  refine ⟨[], ?_, fun v => ?_⟩
  · have hself : m.advance [] m.state = m := by rw [advance, ← hitems]
    rw [hitems]
    show Reaches load m [] (m.advance [] m.state)
    rw [hself]
    exact .refl m
  · rw [hitems]
    exact ⟨nofun, nofun⟩

/-- An item that loads no file is run, and then the items behind it. -/
theorem runsAs_of_step (hdepth : m.depth + depth = maxIncludeDepth)
    (hitems : m.top.items = i :: is) (hl : m.loaded? load i = none)
    (h : ∀ s, (m.advance is s).RunsAs load depth) : m.RunsAs load depth := by
  have hnone : ∀ below entry, depth = below + 1 → ¬Loads load m.state i entry := by
    rintro below entry rfl hloads
    obtain ⟨offset, file, text, hr, ht, rfl⟩ := loads_iff.mp hloads
    have hsome := loaded?_eq_some.mpr ⟨by omega, file, text, hr, ht, rfl⟩
    rw [hl] at hsome
    cases hsome
  rw [RunsAs, hitems, runItems_cons]
  simp only [visits_cons_iff]
  rw [step_of_loaded?_eq_none hl hdepth]
  cases hs : Preprocessed.step (fun _ => none) m.allowance m.top.entry m.state i with
  | error stop =>
    refine ⟨m.visit?.toList, .stop (next_of_error hitems hl hs), fun v => ?_⟩
    rw [toList_visit? hdepth hitems, List.mem_singleton]
    refine ⟨.inl, ?_⟩
    rintro (rfl | ⟨s', hs', -⟩ | ⟨below, entry, hb, hloads, -⟩)
    · rfl
    · cases hs'
    · exact absurd hloads (hnone below entry hb)
  | ok s =>
    obtain ⟨us, hdoes, hus⟩ := h s
    refine ⟨m.visit?.toList ++ us, ?_, fun v => ?_⟩
    · exact hdoes.of_reaches (.single (next_of_ok hitems hl hs)) fun _ => rfl
    · rw [toList_visit? hdepth hitems, List.singleton_append, List.mem_cons, hus]
      refine or_congr_right ⟨fun hv => .inl ⟨s, rfl, hv⟩, ?_⟩
      rintro (⟨s', hs', hv⟩ | ⟨below, entry, hb, hloads, -⟩)
      · cases hs'
        exact hv
      · exact absurd hloads (hnone below entry hb)

/-- A file is entered and run, and then the items behind the one that loads it. -/
theorem runsAs_of_push (hdepth : m.depth + (depth + 1) = maxIncludeDepth)
    (hitems : m.top.items = i :: is) (hl : m.loaded? load i = some (offset, entry))
    (hfile : (m.push is offset entry).RunsAs load depth)
    (h : ∀ s, (m.advance is s).RunsAs load (depth + 1)) : m.RunsAs load (depth + 1) := by
  have hm := next_of_loaded? hitems hl
  have hentry : ∀ entry', Loads load m.state i entry' → entry' = entry := by
    intro entry' hloads
    obtain ⟨offset', file', text', hr', ht', rfl⟩ := loads_iff.mp hloads
    obtain ⟨-, file, text, hr, ht, rfl⟩ := loaded?_eq_some.mp hl
    cases hr'.symm.trans hr
    cases ht'.symm.trans ht
    rfl
  rw [RunsAs, hitems, runItems_cons]
  simp only [visits_cons_iff]
  rw [step_of_loaded? hl, runFile_eq]
  obtain ⟨us, hdoes, hus⟩ := hfile
  change Does load _ us (runItems load depth entry (m.state.enter entry)
    (Item.ofText entry.file.code)) at hdoes
  cases hs : runItems load depth entry (m.state.enter entry) (Item.ofText entry.file.code) with
  | error stop =>
    rw [hs] at hdoes
    refine ⟨m.visit?.toList ++ us, .step hm hdoes, fun v => ?_⟩
    rw [toList_visit? hdepth hitems, List.singleton_append, List.mem_cons, hus]
    refine or_congr_right ⟨fun hv => .inr ⟨depth, entry, rfl, loads_of_loaded? hl, hv⟩, ?_⟩
    rintro (⟨s', hs', -⟩ | ⟨below, entry', hb, hloads, hv⟩)
    · cases hs'
    · cases hb
      cases hentry _ hloads
      exact hv
  | ok s =>
    rw [hs] at hdoes
    -- The file is left with a line feed behind it, and the counter is what it was.
    have hleave : Reaches load ((m.push is offset entry).advance [] s) []
        (m.advance is (s.emit [⟨['\n'], .inserted m.top.entry.index offset⟩])) :=
      .single rfl
    obtain ⟨ws, hrest, hws⟩ := h (s.emit [⟨['\n'], .inserted m.top.entry.index offset⟩])
    refine ⟨m.visit?.toList ++ us ++ ws, ?_, fun v => ?_⟩
    · have hback := (Reaches.step hm hdoes).trans hleave
      rw [List.append_nil] at hback
      exact hrest.of_reaches hback fun _ => rfl
    · rw [toList_visit? hdepth hitems, List.append_assoc, List.singleton_append, List.mem_cons,
        List.mem_append, hus, hws]
      refine or_congr_right ⟨?_, ?_⟩
      · rintro (hv | hv)
        · exact .inr ⟨depth, entry, rfl, loads_of_loaded? hl, hv⟩
        · exact .inl ⟨_, rfl, hv⟩
      · rintro (⟨s', hs', hv⟩ | ⟨below, entry', hb, hloads, hv⟩)
        · cases hs'
          exact .inr hv
        · cases hb
          cases hentry _ hloads
          exact .inl hv

/-- **The machine does what a run over the items of its file does.** -/
theorem runsAs_runItems (hdepth : m.depth + depth = maxIncludeDepth) : m.RunsAs load depth := by
  -- A file that is entered is run with a smaller depth, so the induction on the depth comes
  -- first.
  induction depth using Nat.strongRecOn generalizing m with
  | ind depth ihd =>
    induction hitems : m.top.items generalizing m with
    | nil => exact runsAs_nil hitems
    | cons i is ih =>
      have hrest : ∀ s, (m.advance is s).RunsAs load depth := fun s => ih hdepth rfl
      cases hl : m.loaded? load i with
      | none => exact runsAs_of_step hdepth hitems hl hrest
      | some loaded =>
        obtain ⟨offset, entry⟩ := loaded
        obtain ⟨hlt, -⟩ := loaded?_eq_some.mp hl
        obtain ⟨below, rfl⟩ : ∃ below, depth = below + 1 := ⟨depth - 1, by omega⟩
        have hbelow : (m.push is offset entry).depth + below = maxIncludeDepth := by
          show m.depth + 1 + below = maxIncludeDepth
          omega
        exact runsAs_of_push hdepth hitems hl (ihd below (Nat.lt_succ_self _) hbelow) hrest

/-- **The machine ends like the run of the main file**, and has its visits. -/
theorem ends_runMain (load : String → Option Text) (name : Option String) (text : Text) :
    ∃ vs, Ends load (start name text) vs (runMain load name text) ∧
      ∀ v, v ∈ vs ↔ Visited load name text v := by
  have hruns : (start name text).RunsAs load maxIncludeDepth :=
    runsAs_runItems (Nat.zero_add maxIncludeDepth)
  obtain ⟨us, hdoes, hus⟩ := hruns
  refine ⟨us, ?_, hus⟩
  rw [runMain_eq]
  change Does load _ us (runItems load maxIncludeDepth (mainEntry name text)
    (startState name text) (Item.ofText (mainEntry name text).file.code)) at hdoes
  cases hs : runItems load maxIncludeDepth (mainEntry name text) (startState name text)
      (Item.ofText (mainEntry name text).file.code) with
  | error stop =>
    rw [hs] at hdoes
    exact hdoes
  | ok s =>
    rw [hs] at hdoes
    have hend : Ends load ((start name text).advance [] s) []
        (finish (mainEntry name text) s) := .stop rfl
    have hall := Reaches.ends hdoes hend
    rwa [List.append_nil] at hall

/-! ### The counter -/

/-- **What a step can be**: a file is left, a file is entered, or an item is run. -/
theorem cases_of_goesOn (h : m.next load = .goesOn m₁) :
    (∃ f fs, m.top.items = [] ∧ m.below = f :: fs ∧
      m₁ = ⟨f, fs, m.depth - 1, m.state.emit m.top.after⟩) ∨
    (∃ i is offset entry, m.top.items = i :: is ∧ m.loaded? load i = some (offset, entry) ∧
      m₁ = m.push is offset entry) ∨
    ∃ i is s, m.top.items = i :: is ∧ m.loaded? load i = none ∧
      Preprocessed.step (fun _ => none) m.allowance m.top.entry m.state i = .ok s ∧
      m₁ = m.advance is s := by
  unfold next at h
  split at h
  · next hitems =>
    split at h
    · cases h
    · next f fs hbelow =>
      cases h
      exact .inl ⟨f, fs, hitems, hbelow, rfl⟩
  · next i is hitems =>
    split at h
    · next offset entry hl =>
      cases h
      exact .inr (.inl ⟨i, is, offset, entry, hitems, hl, rfl⟩)
    · next hl =>
      split at h
      · next s hs =>
        cases h
        exact .inr (.inr ⟨i, is, s, hitems, hl, hs, rfl⟩)
      · cases h

/-- **How the machine can end**: at the end of the main file, or where an item fails. -/
theorem cases_of_ends (h : m.next load = .ends r) :
    (m.top.items = [] ∧ m.below = [] ∧ r = finish m.top.entry m.state) ∨
    ∃ i is stop, m.top.items = i :: is ∧ m.loaded? load i = none ∧
      Preprocessed.step (fun _ => none) m.allowance m.top.entry m.state i = .error stop ∧
      r = .error stop := by
  unfold next at h
  split at h
  · next hitems =>
    split at h
    · next hbelow =>
      cases h
      exact .inl ⟨hitems, hbelow, rfl⟩
    · cases h
  · next i is hitems =>
    split at h
    · cases h
    · next hl =>
      split at h
      · cases h
      · next stop hs =>
        cases h
        exact .inr ⟨i, is, stop, hitems, hl, hs, rfl⟩

/-- The counter is the number of files that wait, and it does not go beyond the limit. -/
structure WellFormed (m : Machine) : Prop where
  depth_eq : m.depth = m.below.length
  depth_le : m.depth ≤ maxIncludeDepth

theorem wellFormed_start (name : Option String) (text : Text) : (start name text).WellFormed :=
  ⟨rfl, Nat.zero_le _⟩

theorem WellFormed.next (hm : m.WellFormed) (h : m.next load = .goesOn m₁) : m₁.WellFormed := by
  obtain ⟨f, fs, -, hbelow, rfl⟩ | ⟨i, is, offset, entry, -, hl, rfl⟩ | ⟨i, is, s, -, -, -, rfl⟩ :=
    cases_of_goesOn h
  · have hlen : m.depth = fs.length + 1 := by rw [hm.depth_eq, hbelow, List.length_cons]
    exact ⟨show m.depth - 1 = fs.length by omega, Nat.le_trans (Nat.sub_le ..) hm.depth_le⟩
  · obtain ⟨hlt, -⟩ := loaded?_eq_some.mp hl
    exact ⟨congrArg (· + 1) hm.depth_eq, hlt⟩
  · exact ⟨hm.depth_eq, hm.depth_le⟩

theorem Reaches.wellFormed (h : Reaches load m us m₁) (hm : m.WellFormed) : m₁.WellFormed := by
  induction h with
  | refl => exact hm
  | step hnext _ ih => exact ih (hm.next hnext)

/-- The main file. -/
def main (m : Machine) : Entry := (m.below.getLastD m.top).entry

/-- The main file stays at the bottom of the stack. -/
theorem main_eq_of_goesOn (h : m.next load = .goesOn m₁) : m₁.main = m.main := by
  have htop : ∀ is : List Item, (m.below.getLastD { m.top with items := is }).entry = m.main := by
    intro is
    rw [main]
    cases m.below with
    | nil => rfl
    | cons f fs => rw [List.getLastD_cons, List.getLastD_cons]
  obtain ⟨f, fs, -, hbelow, rfl⟩ | ⟨i, is, offset, entry, -, -, rfl⟩ | ⟨i, is, s, -, -, -, rfl⟩ :=
    cases_of_goesOn h
  · rw [main, main, hbelow, List.getLastD_cons]
  · rw [main, push, List.getLastD_cons]
    exact htop is
  · exact htop is

theorem Reaches.main_eq (h : Reaches load m us m₁) : m₁.main = m.main := by
  induction h with
  | refl => rfl
  | step hnext _ ih => exact ih.trans (main_eq_of_goesOn hnext)

/-- Where the counter has reached the limit, an `#include` fails, whether its file could be
loaded or not. -/
theorem next_of_requested?_of_le (hitems : m.top.items = i :: is)
    (hr : requested? m.state i = some (offset, file)) (hdepth : maxIncludeDepth ≤ m.depth) :
    m.next load = .ends (m.state.fail m.top.entry offset (.includeDepthExceeded file)) := by
  have hlt : ¬m.depth < maxIncludeDepth := Nat.not_lt.mpr hdepth
  have hl : m.loaded? load i = none := if_neg hlt
  obtain ⟨operands, hname, hstep⟩ := step_of_requested? hr
  have hs : Preprocessed.step (fun _ => none) m.allowance m.top.entry m.state i =
      m.state.fail m.top.entry offset (.includeDepthExceeded file) := by
    rw [hstep, includeFile, hname, allowance, if_neg hlt]
  exact next_of_error hitems hl hs

/-- Below the limit an `#include` does not fail: its file is entered, or there is none. -/
theorem exists_next_of_requested? (hitems : m.top.items = i :: is)
    (hr : requested? m.state i = some (offset, file)) (hdepth : m.depth < maxIncludeDepth) :
    ∃ m', m.next load = .goesOn m' := by
  cases hl : m.loaded? load i with
  | some loaded => exact ⟨_, next_of_loaded? hitems hl⟩
  | none =>
    obtain ⟨operands, hname, hstep⟩ := step_of_requested? hr
    obtain ⟨s, hs⟩ : ∃ s, Preprocessed.step (fun _ => none) m.allowance m.top.entry m.state i =
        .ok s := by
      rw [hstep, includeFile, hname, allowance, if_pos hdepth]
      exact ⟨_, rfl⟩
    exact ⟨_, next_of_ok hitems hl hs⟩

end Machine

/-! ### Chains of includes -/

/-- There are no directives among the items. -/
def NoDirectives (is : List Item) : Prop := ∀ i ∈ is, ∃ offset text, i = .region offset text

theorem noDirectives_nil : NoDirectives [] := by
  intro i hi
  cases hi

/-- `Chain load files t t'`: the text `t` includes the first of the files, that one includes the
second one, and so on, and the last one is `t'`.  Apart from that there are no directives in the
texts in front of `t'`. -/
inductive Chain (load : String → Option Text) : List String → Text → Text → Prop
  | nil (t : Text) : Chain load [] t t
  | cons {t t' t'' operands : Text} {front back : List Item} {offset : Nat} {command : Command}
      {file : String} {files : List String} :
      Item.ofText (Comment.blank t) = front ++ .directive offset command :: back →
      NoDirectives front → NoDirectives back →
      Directive.ofCommand command = .includeFile operands →
      Directive.includeName? operands = some file → load file = some t' →
      Chain load files t' t'' → Chain load (file :: files) t t''

/-- No macro is defined and no group is open. -/
structure State.Idle (s : State) : Prop where
  macros : s.macros = {}
  groups : s.groups = []

theorem runItems_of_noDirectives {is : List Item} (h : NoDirectives is) (hs : s.Idle) :
    ∃ s', runItems load depth e s is = .ok s' ∧ s'.Idle := by
  induction is generalizing s with
  | nil => exact ⟨s, rfl, hs⟩
  | cons i is ih =>
    obtain ⟨offset, text, rfl⟩ := h i (List.mem_cons_self ..)
    have hidle : (s.emit [⟨text, .copied e.index offset⟩]).Idle := ⟨hs.macros, hs.groups⟩
    obtain ⟨s', hrun, hs'⟩ := ih (fun j hj => h j (List.mem_cons_of_mem _ hj)) hidle
    refine ⟨s', ?_, hs'⟩
    rw [runItems_cons, step, hs.groups, storeRegion_of_empty hs.macros]
    exact hrun

/-- **A chain is run to its end if it is not longer than the depth**, and otherwise it fails
at the first `#include` that is too deep. -/
theorem runFile_of_chain {files : List String} {t t' : Text} (h : Chain load files t t')
    (ht : e.file.text = t) (hs : s.Idle) :
    (files.length ≤ depth → NoDirectives (Item.ofText (Comment.blank t')) →
      ∃ s', runFile load depth e s = .ok s' ∧ s'.Idle) ∧
    ∀ hlt : depth < files.length, ∃ stop, runFile load depth e s = .error stop ∧
      stop.error.reason = .includeDepthExceeded files[depth] := by
  induction h generalizing depth e s with
  | nil t =>
    refine ⟨fun _ hplain => ?_, fun hlt => absurd hlt (Nat.not_lt_zero _)⟩
    rw [runFile_eq, SourceFile.code, ht]
    exact runItems_of_noDirectives hplain hs
  | @cons t t' _ operands front back offset command file files hitems hfront hback hd hname hload
      _ ih =>
    obtain ⟨s₁, hrun, hs₁⟩ : ∃ s₁, runItems load depth e s front = .ok s₁ ∧ s₁.Idle :=
      runItems_of_noDirectives hfront hs
    have hr : requested? s₁ (.directive offset command) = some (offset, file) := by
      rw [requested?, hs₁.groups, hd]
      simp only [hname]
      rfl
    obtain ⟨operands', hname', hstep⟩ := step_of_requested? hr
    rw [runFile_eq, SourceFile.code, ht, hitems, runItems_append, hrun, ok_bind, runItems_cons,
      hstep, includeFile, hname']
    cases depth with
    | zero =>
      exact ⟨fun hle => absurd hle (Nat.not_succ_le_zero _), fun _ => ⟨_, rfl, rfl⟩⟩
    | succ below =>
      simp only [descend, hload]
      have henter : (s₁.enter ⟨s₁.files.length, ⟨some file, t'⟩⟩).Idle := ⟨hs₁.macros, hs₁.groups⟩
      obtain ⟨hok, herror⟩ := @ih below ⟨s₁.files.length, ⟨some file, t'⟩⟩ _ rfl henter
      constructor
      · intro hle hplain
        obtain ⟨s₂, hfile, hs₂⟩ := hok (Nat.le_of_succ_le_succ hle) hplain
        change runFile load below _ { s₁ with files := _ } = _ at hfile
        rw [hfile, ok_bind]
        exact runItems_of_noDirectives hback ⟨hs₂.macros, hs₂.groups⟩
      · intro hlt
        obtain ⟨stop, hfile, hreason⟩ := herror (Nat.lt_of_succ_lt_succ hlt)
        change runFile load below _ { s₁ with files := _ } = _ at hfile
        rw [hfile]
        exact ⟨stop, rfl, hreason⟩

/-- **Includes are nested up to the limit and no deeper, and every run ends.**  The machine
takes finitely many steps and ends like the run.  Whenever it has got to a file, the counter is
the number of files that wait for it, which is 64 at most.  An active `#include` is refused under
its name if the counter is 64, whether its file could be loaded or not, and else it is passed.
So a chain of includes is run to its end if there are no more than 64 of them, and it fails if
there are more. -/
theorem includes_bounded (load : String → Option Text) (name : Option String) (text : Text) :
    Acc (fun m' m : Machine => m.next load = .goesOn m') (.start name text) ∧
    (∃ vs, Machine.Ends load (.start name text) vs (runMain load name text)) ∧
    (∀ vs m, Machine.Reaches load (.start name text) vs m →
      m.depth = m.below.length ∧ m.depth ≤ 64 ∧
      ∀ i ∈ m.top.items.head?, ∀ offset file, requested? m.state i = some (offset, file) →
        (m.depth = 64 → runMain load name text =
          m.state.fail m.top.entry offset (.includeDepthExceeded file)) ∧
        (m.depth < 64 → ∃ m', m.next load = .goesOn m')) ∧
    ∀ files t, Chain load files text t →
      (files.length ≤ 64 → NoDirectives (Item.ofText (Comment.blank t)) →
        ∃ s, runMain load name text = .ok s) ∧
      ∀ h : 64 < files.length, ∃ stop, runMain load name text = .error stop ∧
        stop.error.reason = .includeDepthExceeded files[64] := by
  obtain ⟨vs, hends, -⟩ := Machine.ends_runMain load name text
  refine ⟨hends.acc, ⟨vs, hends⟩, fun us m hreaches => ?_, fun files t hchain => ?_⟩
  · have hm := hreaches.wellFormed (Machine.wellFormed_start name text)
    refine ⟨hm.depth_eq, hm.depth_le, fun i hi offset file hr => ?_⟩
    obtain ⟨is, hitems⟩ : ∃ is, m.top.items = i :: is := List.head?_eq_some_iff.mp hi
    refine ⟨fun hdepth => ?_, Machine.exists_next_of_requested? hitems hr⟩
    have hstop : m.next load = _ :=
      Machine.next_of_requested?_of_le hitems hr (Nat.le_of_eq hdepth.symm)
    exact (hends.unique (hreaches.ends (.stop hstop))).2
  · obtain ⟨hok, herror⟩ := @runFile_of_chain load maxIncludeDepth (mainEntry name text)
      (startState name text) _ _ _ hchain rfl ⟨rfl, rfl⟩
    rw [runMain_eq, ← runFile_eq]
    refine ⟨fun hle hplain => ?_, fun hlt => ?_⟩
    · obtain ⟨s, hrun, hidle⟩ := hok hle hplain
      rw [hrun, ok_bind, hidle.groups]
      exact ⟨s, rfl⟩
    · obtain ⟨stop, hrun, hreason⟩ := herror hlt
      rw [hrun]
      exact ⟨stop, rfl, hreason⟩

/-- A file that includes itself. -/
def selfText : Text := "#include <f>\n".toList

theorem chain_selfText {files : List String} {t t' : Text} (hload : load "f" = some t)
    (h : Chain load files t t') : Chain load ("f" :: files) selfText t' := by
  have hitems : Item.ofText (Comment.blank selfText) =
      [] ++ .directive 0 ⟨"include <f>".toList⟩ :: [] := by cbv
  have hdirective : Directive.ofCommand ⟨"include <f>".toList⟩ =
      .includeFile "<f>".toList := by cbv
  have hname : Directive.includeName? "<f>".toList = some "f" := by cbv
  exact .cons hitems noDirectives_nil noDirectives_nil hdirective hname hload h

/-- A file that includes itself fails where the limit is reached, and one that includes a file
without directives is run to its end. -/
theorem includes_bounded_selfText :
    (∃ stop, runMain (fun _ => some selfText) none selfText = .error stop ∧
      stop.error.reason = .includeDepthExceeded "f") ∧
    ∃ s, runMain (fun _ => some ['x', '\n']) none selfText = .ok s := by
  obtain ⟨-, -, -, hself⟩ := includes_bounded (fun _ => some selfText) none selfText
  obtain ⟨-, -, -, hother⟩ := includes_bounded (fun _ => some ['x', '\n']) none selfText
  constructor
  · have hchain : ∀ n, Chain (fun _ => some selfText) (List.replicate n "f") selfText selfText := by
      intro n
      induction n with
      | zero => exact .nil selfText
      | succ n ih => exact chain_selfText rfl ih
    exact (hself _ _ (hchain 65)).2 (by decide)
  · have hlast : Item.ofText (Comment.blank ['x', '\n']) = [.region 0 ['x', '\n']] := by cbv
    refine (hother _ _ (chain_selfText rfl (.nil _))).1 (by decide) fun i hi => ?_
    rw [hlast] at hi
    exact ⟨0, _, List.mem_singleton.mp hi⟩

end PixelWrap.Preprocessed
