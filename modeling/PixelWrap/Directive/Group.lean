/-!
# Groups of conditional text

A group runs from an `#if` to its `#endif` and has a branch for each condition in
it.  At most one branch of a group is active: the first one whose condition holds,
or the one after `#else` if none does.

## Main definitions

* `Group`: the state of an open group.
* `Groups`: the groups that are open, the innermost first.
* `Groups.enter`, `Groups.elseIf?`, `Groups.otherwise?`, `Groups.leave?`: what the
  directives of a group do; `none` if the directive belongs to no open group.
-/

namespace PixelWrap

/-- The state of an open group. -/
structure Group where
  /-- Whether the current branch is active. -/
  active : Bool
  /-- Whether a branch of the group has been chosen already. -/
  taken : Bool
  /-- Whether the text around the group is active. -/
  parentActive : Bool
  /-- Whether the current branch is the one after `#else`. -/
  seenElse : Bool
  deriving DecidableEq, Repr

/-- The open groups, the innermost first. -/
abbrev Groups := List Group

namespace Groups

/-- Whether text is active inside the open groups. -/
def isActive : Groups → Bool
  | [] => true
  | g :: _ => g.active

/-- Opens a group whose first condition has the given value. -/
def enter (gate : Bool) (gs : Groups) : Groups :=
  { active := gs.isActive && gate
    taken := gate
    parentActive := gs.isActive
    seenElse := false } :: gs

/-- Whether the condition of a next branch counts; `none` if there can be no next
branch with a condition. -/
def needsCondition? : Groups → Option Bool
  | [] => none
  | g :: _ => if g.seenElse then none else some (g.parentActive && !g.taken)

/-- Starts a next branch whose condition has the given value. -/
def elseIf? (gate : Bool) : Groups → Option Groups
  | [] => none
  | g :: gs =>
    if g.seenElse then none
    else if g.parentActive && !g.taken then some ({ g with active := gate, taken := gate } :: gs)
    else some ({ g with active := false } :: gs)

/-- Starts the branch that is chosen if no other was. -/
def otherwise? : Groups → Option Groups
  | [] => none
  | g :: gs =>
    if g.seenElse then none
    else
      some ({ g with seenElse := true, active := g.parentActive && !g.taken, taken := true } :: gs)

/-- Closes the innermost group. -/
def leave? : Groups → Option Groups
  | [] => none
  | _ :: gs => some gs

@[simp] theorem isActive_nil : isActive [] = true := rfl

@[simp] theorem isActive_enter (gate : Bool) (gs : Groups) :
    (enter gate gs).isActive = (gs.isActive && gate) := rfl

@[simp] theorem leave?_enter (gate : Bool) (gs : Groups) :
    (enter gate gs).leave? = some gs := rfl

end Groups

end PixelWrap
