import Mathlib.Logic.Relation
import Mathlib.Tactic.Common
import PixelWrap.Macro.Expansion

/-!
# Replacing macros ends, and leaves the disabled macros as they were

The functions that replace macros hand the disabled macros around as one stack: the
name of a macro goes on it before the replacement text of the macro is read and comes
off again afterwards, whatever came out of reading.  This module spells that out.  The
code of a task says which tasks it starts, one after the other, and with which stack;
it does not say that any of them ends.  A run of code is a finite derivation, so to
have a run is to end.

## Main definitions

* `Macro.Task`: one of the three things to do: scan a text, replace a use, resume.
* `Macro.Code`: what is done, with the tasks started along the way left open.
* `Macro.Task.code`: the code of each task.
* `Macro.Runs`: code comes to an end, with a stack and an answer.
* `Macro.Calls`: a task starts another one.

## Main results

* `Macro.runs_code`: each task comes to an end, with the answer that `scan`, `invoke`
  and `resume` compute and with the stack it was started with.
* `Macro.below_of_calls`: a task that is started has a smaller rank.
* `Macro.replacement_terminates`: **replacing macros ends.**
-/

namespace PixelWrap.Macro

/-! ### Tasks and their code -/

/-- A task to be done while the macros on the stack are disabled. -/
inductive Task (t : Table) (stack : List String) where
  /-- Cut a text into pieces. -/
  | scan (text : Text)
  /-- Replace a use of a macro whose name stands in front of `rest`. -/
  | invoke (m : Enabled t stack) (rest : Text)
  /-- Go on with the replacement `output` of a use that stands in front of `rest`. -/
  | resume (origin : String) (output rest : Text)

/-- What a task answers; a use is answered by its replacement and the text left to
read. -/
abbrev Task.Answer {t : Table} {stack : List String} : Task t stack → Type
  | .scan _ => Except Failure (List Piece)
  | .invoke _ _ => Except Error (Option (Text × Text))
  | .resume _ _ _ => Except Error (Text × Text)

/-- Code that gives an answer of type `α`, and the stack it leaves. -/
inductive Code (t : Table) (α : Type) where
  /-- There is nothing left to do. -/
  | done (stack : List String) (answer : α)
  /-- A task is done first, and its stack and answer are handed on. -/
  | call (stack : List String) (task : Task t stack) (next : List String → task.Answer → Code t α)

variable {t : Table} {α : Type}

/-- Reads a text to its end and puts something in front of its pieces. -/
def scanOn (stack : List String) (text : Text) (f : List Piece → List Piece) :
    Code t (Except Failure (List Piece)) :=
  .call stack (.scan text) fun stack r => .done stack (Except.map f r)

/-- The code of cutting a text into pieces. -/
def scanCode (t : Table) (stack : List String) : Text → Code t (Except Failure (List Piece))
  | [] => .done stack (.ok [])
  | c :: r =>
    if c == '"' then scanOn stack (Quoted.split r).2 (keep (c :: (Quoted.split r).1))
    else if isNameChar c then
      match t.enabled? stack (c :: r.takeWhile isNameChar) with
      | none => scanOn stack (r.dropWhile isNameChar) (keep (c :: r.takeWhile isNameChar))
      | some m =>
        .call stack (.invoke m (r.dropWhile isNameChar)) fun stack a =>
          match a with
          | .error e => .done stack (.error ⟨e, c :: r⟩)
          | .ok none =>
            scanOn stack (r.dropWhile isNameChar) (keep (c :: r.takeWhile isNameChar))
          | .ok (some (output, after)) =>
            scanOn stack after
              (.replaced ((c :: r).take (r.length + 1 - after.length)) output :: ·)
    else scanOn stack r (keep [c])

/-- Replaces the macros in arguments, one after the other, up to the first that
fails. -/
def expandAll : List String → List Text →
    (List String → Except Error (List Text) → Code t α) → Code t α
  | stack, [], next => next stack (.ok [])
  | stack, a :: as, next =>
    .call stack (.scan a) fun stack r =>
      match (Except.map flatten r).mapError Failure.error with
      | .error e => next stack (.error e)
      | .ok x => expandAll stack as fun stack xs => next stack (xs.map (x :: ·))

/-- Reads the replacement text of a macro with the arguments in place.  The macro is
disabled meanwhile, and enabled again before an error is passed on. -/
def replaceCode (stack : List String) (m : Macro) (args expanded : List Text) (after : Text) :
    Code t (Except Error (Option (Text × Text))) :=
  .call (m.name :: stack) (.scan (render args expanded m.body)) fun stack r =>
    match r with
    | .error f => .done stack.tail (.error f.error)
    | .ok pieces =>
      .call stack.tail (.resume m.name (flatten pieces) after) fun stack r =>
        .done stack (Except.map some r)

/-- The code of replacing a use. -/
def invokeCode (t : Table) (stack : List String) (m : Macro) (rest : Text) :
    Code t (Except Error (Option (Text × Text))) :=
  match m.params with
  | none => replaceCode stack m [] [] rest
  | some params =>
    match readCall m params rest with
    | .error e => .done stack (.error e)
    | .ok none => .done stack (.ok none)
    | .ok (some call) =>
      expandAll stack call.args fun stack r =>
        match r with
        | .error e => .done stack (.error e)
        | .ok expanded => replaceCode stack m call.args expanded call.after

/-- The code of going on with a replacement. -/
def resumeCode (t : Table) (stack : List String) (origin : String) (output rest : Text) :
    Code t (Except Error (Text × Text)) :=
  match t.enabled? stack (trailingName output) with
  | none => .done stack (.ok (output, rest))
  | some m =>
    if m.val.isFunctionLike && m.val.name != origin then
      .call stack (.invoke m rest) fun stack a =>
        match a with
        | .error e => .done stack (.error e)
        | .ok none => .done stack (.ok (output, rest))
        | .ok (some (tail, after)) =>
          .call stack (.resume origin (beforeTrailingName output ++ tail) after) .done
    else .done stack (.ok (output, rest))

/-- The code of a task. -/
def Task.code {stack : List String} : (task : Task t stack) → Code t task.Answer
  | .scan text => scanCode t stack text
  | .invoke m rest => invokeCode t stack m.val rest
  | .resume origin output rest => resumeCode t stack origin output rest

/-- The code of replacing all macros in a text. -/
def expandCode (t : Table) (stack : List String) (text : Text) : Code t (Except Error Text) :=
  .call stack (.scan text) fun stack r =>
    .done stack ((Except.map flatten r).mapError Failure.error)

/-! ### Runs and calls -/

/-- `Runs c stack a`: the code `c` comes to an end with the stack and the answer. -/
inductive Runs : {α : Type} → Code t α → List String → α → Prop
  /-- There was nothing left to do. -/
  | done {α : Type} (stack : List String) (a : α) : Runs (.done stack a) stack a
  /-- The task that is done first comes to an end, and so does what follows. -/
  | call {α : Type} {stack stack₁ stack₂ : List String} {task : Task t stack}
      {next : List String → task.Answer → Code t α} {b : task.Answer} {a : α} :
      Runs task.code stack₁ b → Runs (next stack₁ b) stack₂ a →
      Runs (.call stack task next) stack₂ a

/-- A task together with the stack it is started with. -/
abbrev Frame (t : Table) := (stack : List String) × Task t stack

/-- `Starts c f`: the code `c` starts the task `f`. -/
inductive Starts : {α : Type} → Code t α → Frame t → Prop
  /-- It is the first task. -/
  | first {α : Type} (stack : List String) (task : Task t stack)
      (next : List String → task.Answer → Code t α) : Starts (.call stack task next) ⟨stack, task⟩
  /-- It is started after the first task has come to an end. -/
  | later {α : Type} {stack stack₁ : List String} {task : Task t stack}
      {next : List String → task.Answer → Code t α} {b : task.Answer} {f : Frame t} :
      Runs task.code stack₁ b → Starts (next stack₁ b) f → Starts (.call stack task next) f

/-- The first task starts the second one itself. -/
def Calls (f g : Frame t) : Prop := Starts f.2.code g

/-! ### Answers and ranks -/

/-- The answer that the functions of the library compute for a task. -/
def Task.answer {stack : List String} : (task : Task t stack) → task.Answer
  | .scan text => Macro.scan t stack text
  | .invoke m rest =>
    (Macro.invoke t stack m rest).map (Option.map fun o => (o.val.output, o.val.after))
  | .resume origin output rest =>
    (Macro.resume t stack origin output rest).map fun o => (o.output, o.after)

/-- What drops with each call: the number of enabled macros, the weight and the length
of the text to read, and the kind of the task. -/
def rank : Frame t → Nat × Nat × Nat × Nat
  | ⟨s, .scan text⟩ => (enabledCount t s, weight text, text.length, 0)
  | ⟨s, .invoke m rest⟩ =>
    (enabledCount t s, weight rest, rest.length, if m.val.isFunctionLike then 0 else 2)
  | ⟨s, .resume _ _ rest⟩ => (enabledCount t s, weight rest, rest.length, 1)

/-- The second task has a smaller rank. -/
def Drops (f g : Frame t) : Prop :=
  Prod.Lex (· < ·) (Prod.Lex (· < ·) (Prod.Lex (· < ·) (· < ·))) (rank g) (rank f)

theorem wellFounded_drops : WellFounded fun g f : Frame t => Drops f g :=
  InvImage.wf rank
    (Prod.lex Nat.lt_wfRel (Prod.lex Nat.lt_wfRel (Prod.lex Nat.lt_wfRel Nat.lt_wfRel))).wf

/-- The text that a task reads. -/
def Task.text {stack : List String} : Task t stack → Text
  | .scan text => text
  | .invoke _ rest => rest
  | .resume _ _ rest => rest

/-- The second task has a smaller rank, and its stack is that of the first one, with
the name of one more macro at most. -/
structure Below (f g : Frame t) : Prop where
  drops : Drops f g
  stack : g.1 = f.1 ∨ ∃ m : Enabled t f.1, g.1 = m.val.name :: f.1

/-- A task on a shorter suffix stands below. -/
theorem below_of_suffix {stack : List String} {f g : Task t stack} (h : g.text <:+ f.text)
    (hl : g.text.length < f.text.length) : Below ⟨stack, f⟩ ⟨stack, g⟩ := by
  refine ⟨?_, .inl rfl⟩
  cases f <;> cases g <;> exact Prod.Lex.right _ (lex_of_suffix h hl _ _)

/-- A task with one more macro disabled stands below, whatever text it reads. -/
theorem below_of_disable {stack : List String} (m : Enabled t stack) (f : Task t stack)
    (g : Task t (m.val.name :: stack)) : Below ⟨stack, f⟩ ⟨m.val.name :: stack, g⟩ := by
  refine ⟨?_, .inr ⟨m, rfl⟩⟩
  cases f <;> cases g <;> exact Prod.Lex.left _ _ (enabledCount_cons_lt m)

/-! ### What the code of a task does

One walk through the code settles everything: with the answers of the library put in
for the tasks it starts, code within `f` starts only tasks below `f`, gives the answer
it should, and leaves the stack it should.  -/

/-- With the computed answers put in, the code `c` starts only tasks below `f` and ends
with the stack and the answer. -/
inductive Within (f : Frame t) : {α : Type} → Code t α → List String → α → Prop
  | done {α : Type} (stack : List String) (a : α) : Within f (.done stack a) stack a
  | call {α : Type} {stack stack₂ : List String} {task : Task t stack}
      {next : List String → task.Answer → Code t α} {a : α} :
      Below f ⟨stack, task⟩ → Within f (next stack task.answer) stack₂ a →
      Within f (.call stack task next) stack₂ a

theorem within_scanOn {f : Frame t} {stack : List String} {text : Text}
    (g : List Piece → List Piece) (h : Below f ⟨stack, .scan text⟩) :
    Within f (scanOn stack text g) stack ((scan t stack text).map g) :=
  .call h (.done _ _)

/-- The arguments are expanded in order. -/
theorem within_expandAll {f : Frame t} {stack stack₂ : List String} {args : List Text}
    {next : List String → Except Error (List Text) → Code t α} {a : α}
    (h : ∀ x ∈ args, Below f ⟨stack, .scan x⟩)
    (hn : Within f (next stack
      (args.mapM fun x => ((scan t stack x).map flatten).mapError Failure.error)) stack₂ a) :
    Within f (expandAll stack args next) stack₂ a := by
  induction args generalizing next with
  | nil => exact hn
  | cons x xs ih =>
    refine .call (h x (List.mem_cons_self ..)) ?_
    show Within f (match ((scan t stack x).map flatten).mapError Failure.error with
      | .error e => next stack (.error e)
      | .ok y => expandAll stack xs fun stack ys => next stack (ys.map (y :: ·))) stack₂ a
    rw [List.mapM_cons] at hn
    cases hx : ((scan t stack x).map flatten).mapError Failure.error with
    | error e =>
      rw [hx] at hn
      exact hn
    | ok y =>
      rw [hx] at hn
      refine ih (fun z hz => h z (List.mem_cons_of_mem _ hz)) ?_
      cases hxs : xs.mapM fun z => ((scan t stack z).map flatten).mapError Failure.error with
      | error e =>
        rw [hxs] at hn
        exact hn
      | ok ys =>
        rw [hxs] at hn
        exact hn

theorem within_scanCode (stack : List String) (text : Text) :
    Within ⟨stack, .scan text⟩ (scanCode t stack text) stack (scan t stack text) := by
  cases text with
  | nil =>
    rw [scan]
    exact .done _ _
  | cons c r =>
    have hw : r.dropWhile isNameChar <:+ r := List.dropWhile_suffix _
    have below : ∀ {g : Task t stack}, g.text <:+ r →
        Below ⟨stack, .scan (c :: r)⟩ ⟨stack, g⟩ := fun h =>
      below_of_suffix (h.trans (List.suffix_cons c r)) (Nat.lt_succ_of_le h.length_le)
    rw [scanCode, scan]
    split
    · exact within_scanOn _ (below (Quoted.split_snd_suffix r))
    · split
      · cases he : t.enabled? stack (c :: r.takeWhile isNameChar) with
        | none => exact within_scanOn _ (below hw)
        | some m =>
          refine .call (below hw) ?_
          simp only [Task.answer]
          cases hi : invoke t stack m (r.dropWhile isNameChar) with
          | error e => exact .done _ _
          | ok o =>
            cases o with
            | none => exact within_scanOn _ (below hw)
            | some o => exact within_scanOn _ (below (o.val.isSuffix.trans hw))
      · exact within_scanOn _ (below List.suffix_rfl)

/-- What replacing a use comes to once its arguments have been read. -/
def replaceAnswer (t : Table) (stack : List String) (m : Macro) (args expanded : List Text)
    (after : Text) : Except Error (Option (Text × Text)) := do
  let pieces ← (scan t (m.name :: stack) (render args expanded m.body)).mapError Failure.error
  let o ← resume t stack m.name (flatten pieces) after
  return some (o.output, o.after)

/-- Reading a replacement text: the macro comes off the stack again before anything
else is done. -/
theorem within_replaceCode {stack : List String} (m : Enabled t stack) {rest after : Text}
    (args expanded : List Text)
    (h : Below ⟨stack, .invoke m rest⟩ ⟨stack, .resume m.val.name [] after⟩) :
    Within ⟨stack, .invoke m rest⟩ (replaceCode stack m.val args expanded after) stack
      (replaceAnswer t stack m.val args expanded after) := by
  refine .call (below_of_disable m _ _) ?_
  simp only [Task.answer, replaceAnswer]
  cases scan t (m.val.name :: stack) (render args expanded m.val.body) with
  | error e => exact .done _ _
  | ok pieces =>
    -- The rank of resuming does not depend on what has been put out.
    refine .call ⟨h.drops, h.stack⟩ ?_
    simp only [Task.answer, List.tail_cons, Except.mapError, bind, Except.bind]
    cases resume t stack m.val.name (flatten pieces) after with
    | error e => exact .done _ _
    | ok o => exact .done _ _

/-- The answer to a use of a macro without parameters. -/
theorem invoke_of_params_none {stack : List String} {m : Enabled t stack} (rest : Text)
    (hp : m.val.params = none) :
    (invoke t stack m rest).map (Option.map fun o => (o.val.output, o.val.after)) =
      replaceAnswer t stack m.val [] [] rest := by
  rw [invoke]
  split
  · unfold replaceAnswer
    cases scan t (m.val.name :: stack) (render [] [] m.val.body) with
    | error e => rfl
    | ok pieces =>
      simp only [Except.mapError, bind, Except.bind]
      cases resume t stack m.val.name (flatten pieces) rest with
      | error e => rfl
      | ok o => rfl
  · next h => rw [hp] at h; cases h

/-- The answer to a use of a macro with parameters. -/
theorem invoke_of_params_some {stack : List String} {m : Enabled t stack} (rest : Text)
    {params : List String} (hp : m.val.params = some params) :
    (invoke t stack m rest).map (Option.map fun o => (o.val.output, o.val.after)) =
      match readCall m.val params rest with
      | .error e => .error e
      | .ok none => .ok none
      | .ok (some call) =>
        (call.args.mapM fun a => ((scan t stack a).map flatten).mapError Failure.error).bind
          fun expanded => replaceAnswer t stack m.val call.args expanded call.after := by
  rw [invoke]
  split
  · next h => rw [hp] at h; cases h
  · next h =>
    cases hp.symm.trans h
    cases readCall m.val params rest with
    | error e => rfl
    | ok call =>
      cases call with
      | none => rfl
      | some call =>
        have hargs : (call.args.attach.mapM fun a =>
              ((scan t stack a.val).map flatten).mapError Failure.error) =
            call.args.mapM fun a => ((scan t stack a).map flatten).mapError Failure.error := by
          conv_rhs => rw [← List.attach_map_subtype_val call.args, List.mapM_map]
          rfl
        simp only [hargs]
        cases call.args.mapM fun a => ((scan t stack a).map flatten).mapError Failure.error with
        | error e => rfl
        | ok expanded =>
          simp only [replaceAnswer, bind, Except.bind]
          cases scan t (m.val.name :: stack) (render call.args expanded m.val.body) with
          | error e => rfl
          | ok pieces =>
            simp only [Except.mapError]
            cases resume t stack m.val.name (flatten pieces) call.after with
            | error e => rfl
            | ok o => rfl

theorem within_invokeCode {stack : List String} (m : Enabled t stack) (rest : Text) :
    Within ⟨stack, .invoke m rest⟩ (invokeCode t stack m.val rest) stack
      ((invoke t stack m rest).map (Option.map fun o => (o.val.output, o.val.after))) := by
  rw [invokeCode]
  cases hp : m.val.params with
  | none =>
    rw [invoke_of_params_none _ hp]
    refine within_replaceCode m [] [] ⟨?_, .inl rfl⟩
    refine Prod.Lex.right _ (Prod.Lex.right _ (Prod.Lex.right _ ?_))
    rw [isFunctionLike, hp]
    exact Nat.one_lt_two
  | some params =>
    rw [invoke_of_params_some _ hp]
    dsimp only
    cases readCall m.val params rest with
    | error e => exact .done _ _
    | ok call =>
      cases call with
      | none => exact .done _ _
      | some call =>
        simp only
        refine within_expandAll (fun x hx => ⟨?_, .inl rfl⟩) ?_
        · exact Prod.Lex.right _ (Prod.Lex.left _ _ (call.light x hx))
        · cases call.args.mapM fun a => ((scan t stack a).map flatten).mapError Failure.error with
          | error e => exact .done _ _
          | ok expanded =>
            exact within_replaceCode m _ _ (below_of_suffix call.isSuffix call.shorter)

theorem within_resumeCode (stack : List String) (origin : String) (output rest : Text) :
    Within ⟨stack, .resume origin output rest⟩ (resumeCode t stack origin output rest) stack
      ((resume t stack origin output rest).map fun o => (o.output, o.after)) := by
  rw [resumeCode, resume]
  cases t.enabled? stack (trailingName output) with
  | none => exact .done _ _
  | some m =>
    simp only
    split
    · next hm =>
      simp only [Bool.and_eq_true] at hm
      refine .call ⟨?_, .inl rfl⟩ ?_
      · refine Prod.Lex.right _ (Prod.Lex.right _ (Prod.Lex.right _ ?_))
        rw [if_pos hm.1]
        exact Nat.one_pos
      · simp only [Task.answer]
        cases invoke t stack m rest with
        | error e => exact .done _ _
        | ok o =>
          cases o with
          | none => exact .done _ _
          | some o =>
            refine .call (below_of_suffix o.val.isSuffix (o.property hm.1)) ?_
            simp only [Task.answer]
            cases resume t stack origin (beforeTrailingName output ++ o.val.output) o.val.after with
            | error e => exact .done _ _
            | ok o => exact .done _ _
    · exact .done _ _

/-- The code of each task starts only tasks below it, and with their answers put in it
comes to the answer of the task and to the stack that the task was started with. -/
theorem within_code (f : Frame t) : Within f f.2.code f.1 f.2.answer := by
  obtain ⟨stack, task⟩ := f
  cases task with
  | scan text => exact within_scanCode stack text
  | invoke m rest => exact within_invokeCode m rest
  | resume origin output rest => exact within_resumeCode stack origin output rest

/-! ### Every task ends -/

theorem Within.runs {f : Frame t} {c : Code t α} {stack : List String} {a : α}
    (h : Within f c stack a) (ih : ∀ g, Drops f g → Runs g.2.code g.1 g.2.answer) :
    Runs c stack a := by
  induction h with
  | done stack a => exact .done stack a
  | call hb _ hn => exact .call (ih _ hb.drops) hn

/-- **Each task comes to an end**, with the answer that the library computes and with
the stack it was started with. -/
theorem runs_code (f : Frame t) : Runs f.2.code f.1 f.2.answer :=
  wellFounded_drops.induction f fun f ih => (within_code f).runs ih

/-- Code comes to one end at most. -/
theorem Runs.unique {c : Code t α} {stack stack' : List String} {a a' : α}
    (h : Runs c stack a) (h' : Runs c stack' a') : stack' = stack ∧ a' = a := by
  induction h generalizing stack' with
  | done stack a =>
    cases h'
    exact ⟨rfl, rfl⟩
  | call _ _ ih₁ ih₂ =>
    cases h' with
    | call hr hn =>
      obtain ⟨rfl, rfl⟩ := ih₁ hr
      exact ih₂ hn

theorem Within.below_of_starts {f g : Frame t} {c : Code t α} {stack : List String} {a : α}
    (h : Within f c stack a) (hs : Starts c g) : Below f g := by
  induction h with
  | done => cases hs
  | call hb _ ih =>
    cases hs with
    | first => exact hb
    | later hr hs =>
      -- The task before it has come to the one end it can come to.
      obtain ⟨rfl, rfl⟩ := (runs_code ⟨_, _⟩).unique hr
      exact ih hs

/-- **A task that is started stands below the task that starts it.** -/
theorem below_of_calls {f g : Frame t} (h : Calls f g) : Below f g :=
  (within_code f).below_of_starts h

/-- No chain of calls goes on for ever. -/
theorem wellFounded_calls (t : Table) : WellFounded fun g f : Frame t => Calls f g :=
  Subrelation.wf (fun h => (below_of_calls h).drops) wellFounded_drops

/-- A call keeps the names on the stack apart: only an enabled macro is disabled. -/
theorem nodup_of_calls {f g : Frame t} (h : Calls f g) (hf : f.1.Nodup) : g.1.Nodup := by
  rcases (below_of_calls h).stack with hg | ⟨m, hg⟩
  · rw [hg]
    exact hf
  · rw [hg]
    exact List.nodup_cons.mpr ⟨m.property.2, hf⟩

theorem nodup_of_reflTransGen {f g : Frame t} (h : Relation.ReflTransGen Calls f g)
    (hf : f.1.Nodup) : g.1.Nodup := by
  induction h with
  | refl => exact hf
  | tail _ hc ih => exact nodup_of_calls hc ih

/-- **Replacing macros ends**, whatever the table holds.  No chain of calls goes on for
ever.  Each task comes to one end, in success or in failure, and then the stack of
disabled macros is what it was at the start.  In particular all macros of a text are
replaced, or there is an error; and in none of the tasks along the way is a macro
disabled twice. -/
theorem replacement_terminates (t : Table) :
    (WellFounded fun g f : Frame t => Calls f g) ∧
    (∀ f : Frame t, ∃ a, Runs f.2.code f.1 a ∧
      ∀ stack b, Runs f.2.code stack b → stack = f.1 ∧ b = a) ∧
    ∀ text : Text,
      Runs (Task.scan text : Task t []).code [] (t.substitute text) ∧
      Runs (expandCode t [] text) [] (t.expand text) ∧
      ∀ f : Frame t, Relation.ReflTransGen Calls ⟨[], .scan text⟩ f → f.1.Nodup := by
  refine ⟨wellFounded_calls t, fun f => ⟨_, runs_code f, fun _ _ h => (runs_code f).unique h⟩,
    fun text => ?_⟩
  have hs : Runs (Task.scan text : Task t []).code [] (t.substitute text) :=
    runs_code ⟨[], .scan text⟩
  exact ⟨hs, .call hs (.done _ _), fun f hf => nodup_of_reflTransGen hf List.nodup_nil⟩

end PixelWrap.Macro
