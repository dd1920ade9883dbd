import Mathlib.Tactic.Common
import PixelWrap.Directive.Basic

/-!
# Nested groups

A file has its groups properly nested if its items can be read as a forest.  A group of
the forest has the branch after its first directive and a tail, which holds its other
branches and its end.  Trees carry the proofs that their directives stand where they may,
so that a forest is nested properly by construction.

## Main definitions

* `Directive.Role`: the part that a directive plays in a group.
* `Mark`: a directive with a given role.
* `Forest`, `Tail`: the items of a file, arranged in groups.
* `Forest.ofItems?`: reads a forest.
* `Nested`: the items of a text make up a forest.

## Main results

* `Forest.ofItems?_eq_some_iff`: a forest is read from its own items, and from no others.
-/

namespace PixelWrap

/-! ### Roles -/

/-- The part that an item plays in a group. -/
inductive Directive.Role where
  /-- It has nothing to do with groups. -/
  | plain
  /-- It opens a group. -/
  | opens
  /-- It starts a next branch with a condition. -/
  | elseIf
  /-- It starts the last branch. -/
  | otherwise
  /-- It closes a group. -/
  | endIf
  deriving DecidableEq, Repr

def Directive.role : Directive → Directive.Role
  | .ifHolds _ => .opens
  | .ifDefined _ _ => .opens
  | .elseIf _ => .elseIf
  | .otherwise => .otherwise
  | .endIf => .endIf
  | _ => .plain

def Item.role : Item → Directive.Role
  | .region _ _ => .plain
  | .directive _ command => (Directive.ofCommand command).role

/-- A directive that plays the given part in a group. -/
structure Mark (r : Directive.Role) where
  /-- The offset of the directive. -/
  offset : Nat
  /-- Its content. -/
  command : Command
  role_eq : (Directive.ofCommand command).role = r

/-- The directive as an item of a file. -/
def Mark.item {r : Directive.Role} (m : Mark r) : Item := .directive m.offset m.command

/-! ### Forests -/

mutual

/-- Items that are arranged in groups. -/
inductive Forest where
  | nil
  /-- An item outside the groups of the forest. -/
  | plain (i : Item) (h : i.role = .plain) (rest : Forest)
  /-- A group: its first branch, the tail, and the items after the group. -/
  | group (head : Mark .opens) (body : Forest) (tail : Tail) (rest : Forest)

/-- The part of a group from the end of a branch on. -/
inductive Tail where
  | endIf (m : Mark .endIf)
  /-- The last branch, for which there is no condition. -/
  | otherwise (m : Mark .otherwise) (body : Forest) (close : Mark .endIf)
  /-- A next branch and what follows it in the group. -/
  | elseIf (m : Mark .elseIf) (body : Forest) (tail : Tail)

end

mutual

/-- The items of a forest, in order. -/
def Forest.items : Forest → List Item
  | .nil => []
  | .plain i _ rest => i :: rest.items
  | .group head body tail rest => head.item :: (body.items ++ (tail.items ++ rest.items))

/-- The items of a tail, in order. -/
def Tail.items : Tail → List Item
  | .endIf m => [m.item]
  | .otherwise m body close => m.item :: (body.items ++ [close.item])
  | .elseIf m body tail => m.item :: (body.items ++ tail.items)

end

/-- The groups of a text are nested properly. -/
def Nested (t : Text) : Prop := ∃ f : Forest, f.items = Item.ofText t

/-! ### Reading a forest -/

/-- An item together with the part that it plays. -/
inductive Item.Part where
  | plain (i : Item) (h : i.role = .plain)
  | opens (m : Mark .opens)
  | elseIf (m : Mark .elseIf)
  | otherwise (m : Mark .otherwise)
  | endIf (m : Mark .endIf)

def Item.Part.item : Item.Part → Item
  | .plain i _ => i
  | .opens m => m.item
  | .elseIf m => m.item
  | .otherwise m => m.item
  | .endIf m => m.item

def Item.part : Item → Item.Part
  | .region offset text => .plain (.region offset text) rfl
  | .directive offset command =>
    match h : (Directive.ofCommand command).role with
    | .plain => .plain (.directive offset command) h
    | .opens => .opens ⟨offset, command, h⟩
    | .elseIf => .elseIf ⟨offset, command, h⟩
    | .otherwise => .otherwise ⟨offset, command, h⟩
    | .endIf => .endIf ⟨offset, command, h⟩

theorem Item.item_part (i : Item) : i.part.item = i := by
  cases i with
  | region => rfl
  | directive offset command =>
    rw [Item.part]
    split <;> rfl

theorem Item.part_item (p : Item.Part) : p.item.part = p := by
  cases p with
  | plain i h =>
    cases i with
    | region => rfl
    | directive offset command =>
      simp only [Item.Part.item, Item.part]
      rw [Item.role] at h
      split <;> grind
  | opens m | elseIf m | otherwise m | endIf m =>
    obtain ⟨offset, command, h⟩ := m
    simp only [Item.Part.item, Mark.item, Item.part]
    split <;> grind

/-- The items that have been read, from the last one on.  In front stands a forest, and
behind it there is for each group whose first directive has not been read the tail, with
the forest after the group. -/
structure Frames where
  front : Forest := .nil
  behind : List (Tail × Forest) := []

namespace Frames

def items (r : Frames) : List Item :=
  r.front.items ++ r.behind.flatMap fun (t, rest) => t.items ++ rest.items

/-- Reads one more part, which stands in front of all others. -/
def add? : Item.Part → Frames → Option Frames
  | .plain i h, ⟨f, ts⟩ => some ⟨.plain i h f, ts⟩
  | .opens m, ⟨f, (t, rest) :: ts⟩ => some ⟨.group m f t rest, ts⟩
  | .elseIf m, ⟨f, (t, rest) :: ts⟩ => some ⟨.nil, (.elseIf m f t, rest) :: ts⟩
  | .otherwise m, ⟨f, (.endIf close, rest) :: ts⟩ =>
    some ⟨.nil, (.otherwise m f close, rest) :: ts⟩
  | .endIf m, ⟨f, ts⟩ => some ⟨.nil, (.endIf m, f) :: ts⟩
  | _, _ => none

/-- Reads more items, which stand in front of those that have been read. -/
def read? : List Item → Frames → Option Frames
  | [], r => some r
  | i :: is, r => (read? is r).bind (add? i.part)

theorem items_of_add? {p : Item.Part} {r r' : Frames} (h : add? p r = some r') :
    r'.items = p.item :: r.items := by
  unfold add? at h
  split at h <;> cases h <;> simp [items, Item.Part.item, Forest.items, Tail.items]

theorem items_of_read? {is : List Item} {r r' : Frames} (h : read? is r = some r') :
    r'.items = is ++ r.items := by
  induction is generalizing r' with
  | nil =>
    cases h
    rfl
  | cons i is ih =>
    obtain ⟨r₁, hr, ha⟩ := Option.bind_eq_some_iff.mp h
    rw [items_of_add? ha, ih hr, Item.item_part, List.cons_append]

theorem read?_append (is js : List Item) (r : Frames) :
    read? (is ++ js) r = (read? js r).bind (read? is) := by
  induction is with
  | nil => simp [read?]
  | cons i is ih => simp [read?, ih, Option.bind_assoc]

theorem read?_item (p : Item.Part) (is : List Item) (r : Frames) :
    read? (p.item :: is) r = (read? is r).bind (add? p) := by
  rw [read?, Item.part_item]

end Frames

/-- The forest that the items make up, if they make up one. -/
def Forest.ofItems? (is : List Item) : Option Forest :=
  match Frames.read? is {} with
  | some ⟨f, []⟩ => some f
  | _ => none

mutual

theorem Forest.read?_items (f : Forest) (ts : List (Tail × Forest)) :
    Frames.read? f.items ⟨.nil, ts⟩ = some ⟨f, ts⟩ := by
  match f with
  | .nil => rfl
  | .plain i h rest =>
    have hi := Frames.read?_item (.plain i h) rest.items ⟨.nil, ts⟩
    rw [Forest.read?_items rest] at hi
    exact hi
  | .group head body tail rest =>
    have hi := Frames.read?_item (.opens head) (body.items ++ (tail.items ++ rest.items)) ⟨.nil, ts⟩
    rw [Frames.read?_append, Frames.read?_append, Forest.read?_items rest, Option.bind_some,
      Tail.read?_items tail, Option.bind_some, Forest.read?_items body] at hi
    exact hi

theorem Tail.read?_items (t : Tail) (rest : Forest) (ts : List (Tail × Forest)) :
    Frames.read? t.items ⟨rest, ts⟩ = some ⟨.nil, (t, rest) :: ts⟩ := by
  match t with
  | .endIf m => exact Frames.read?_item (.endIf m) [] ⟨rest, ts⟩
  | .otherwise m body close =>
    have hi := Frames.read?_item (.otherwise m) (body.items ++ [close.item]) ⟨rest, ts⟩
    have hclose : Frames.read? [close.item] ⟨rest, ts⟩ = some ⟨.nil, (.endIf close, rest) :: ts⟩ :=
      Frames.read?_item (.endIf close) [] ⟨rest, ts⟩
    rw [Frames.read?_append, hclose, Option.bind_some, Forest.read?_items body] at hi
    exact hi
  | .elseIf m body tail =>
    have hi := Frames.read?_item (.elseIf m) (body.items ++ tail.items) ⟨rest, ts⟩
    rw [Frames.read?_append, Tail.read?_items tail, Option.bind_some, Forest.read?_items body] at hi
    exact hi

end

/-- **A forest is read from its own items, and from no others.** -/
theorem Forest.ofItems?_eq_some_iff {is : List Item} {f : Forest} :
    Forest.ofItems? is = some f ↔ f.items = is := by
  constructor
  · intro h
    unfold Forest.ofItems? at h
    split at h
    · next f' hr =>
      cases h
      simpa [Frames.items, Forest.items] using Frames.items_of_read? hr
    · cases h
  · rintro rfl
    rw [Forest.ofItems?, Forest.read?_items]

theorem nested_iff {t : Text} : Nested t ↔ (Forest.ofItems? (Item.ofText t)).isSome = true := by
  simp only [Nested, Option.isSome_iff_exists, Forest.ofItems?_eq_some_iff]

instance : DecidablePred Nested := fun _ => decidable_of_iff _ nested_iff.symm

end PixelWrap
