import ModuleMove.Failure
import ModuleMove.Path.Normal

/-!
# DELTAS — how the directory of something changes when it is moved

A delta compares the old and the new directory below the root of the project: what lies beyond
the part that they share is climbed out of and descended into.
-/

namespace ModuleMove

/-- Where the new directory lies as seen from the old one. -/
inductive Direction where
  /-- It is the same directory. -/
  | noMove
  /-- It is further up. -/
  | moveUp
  /-- It is further down. -/
  | moveDown
  /-- It is neither. -/
  | across
  deriving DecidableEq, Repr, Inhabited

/-- The direction's name in reports. -/
def Direction.name : Direction → String
  | noMove => "no-move"
  | moveUp => "move-up"
  | moveDown => "move-down"
  | across => "across"

/-- How the directory of something changes. -/
structure Delta where
  /-- The new name if the directory stays, else the directories left (upwards) or entered. -/
  text : String
  /-- Where the new directory lies. -/
  direction : Direction
  /-- The number of directories left, or entered if none is left. -/
  levels : Nat
  /-- The directories that are left, outermost first. -/
  removed : List String
  /-- The directories that are entered, outermost first. -/
  added : List String
  deriving DecidableEq, Repr, Inhabited

/-- The number of elements with which both lists begin. -/
def commonLength {α : Type} [DecidableEq α] : List α → List α → Nat
  | a :: as, b :: bs => if a = b then 1 + commonLength as bs else 0
  | _, _ => 0

namespace Delta

/-- The names of the directories from `root` down to `dir`. -/
def segmentsBelow (dir root : Path) : List String :=
  Path.textsOf ((dir.below? root).getD dir.components)

/-- Whether a path lies inside the project and is not all of it. -/
def inside (root path : Path) : Bool := path.isUnder root && !path.same root

/-- The delta between two lists of directories below the root. -/
def between (old new : List String) : Delta :=
  let n := commonLength old new
  let removed := old.drop n
  let added := new.drop n
  match removed, added with
  | [], _ => ⟨joinText '/' added, .moveDown, added.length, removed, added⟩
  | _, [] => ⟨joinText '/' removed, .moveUp, removed.length, removed, added⟩
  | _, _ => ⟨joinText '/' added, .across, removed.length, removed, added⟩

/-- The delta of a move from `old` to `new` inside `root`. -/
def compute (old new root : Path) : Except Failure Delta :=
  let root := root.normalize
  let old := old.normalize
  let new := new.normalize
  if old.same new then .error (.refused .samePlace)
  else if !inside root old then .error (.refused (.outsideRoot old))
  else if !inside root new then .error (.refused (.outsideRoot new))
  else
    let oldParent := old.parent?.getD root
    let newParent := new.parent?.getD root
    if oldParent.same newParent then
      .ok ⟨new.fileName?.getD "", .noMove, 0, [], []⟩
    else .ok (between (segmentsBelow oldParent root) (segmentsBelow newParent root))

/-- The way from the old directory to the new one. -/
def relativeText (d : Delta) : String :=
  if d.removed.isEmpty && d.added.isEmpty then "."
  else joinText '/' (d.removed.map (fun _ => "..") ++ d.added)

/-- The place that a directory has after the same change. -/
def applyTo (d : Delta) (dir : Path) : Path :=
  let up := d.removed.foldl (fun p _ => p.parent?.getD p) dir
  d.added.foldl (fun p s => p.join ⟨s⟩) up

/-- The delta in words. -/
def render (d : Delta) : String :=
  match d.direction with
  | .noMove => d.direction.name ++ " as " ++ d.text
  | _ => d.direction.name ++ " " ++ d.relativeText

end Delta

end ModuleMove
