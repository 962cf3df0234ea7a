import ModuleMove.Text.Pieces

/-!
# PATHS — texts that name a place in a tree of directories

A path is kept as it was written.  What it means is given by its components: the parts between
slashes, without the empty ones and without `.` except at the very beginning.  Two spellings
with the same components name the same place, and paths are ordered by their components.
-/

namespace ModuleMove

/-- A part of a path. -/
inductive Component where
  /-- The root of the tree, at the beginning of an absolute path. -/
  | root
  /-- A `.` at the beginning of a relative path. -/
  | current
  /-- A `..`: one directory up. -/
  | up
  /-- The name of a file or directory. -/
  | name (text : String)
  deriving DecidableEq, Repr, Inhabited

namespace Component

/-- How the component is written. -/
def text : Component → String
  | root => "/"
  | current => "."
  | up => ".."
  | name s => s

/-- The order of components: the root first, names last and by their characters. -/
def compare : Component → Component → Ordering
  | root, root => .eq
  | root, _ => .lt
  | _, root => .gt
  | current, current => .eq
  | current, _ => .lt
  | _, current => .gt
  | up, up => .eq
  | up, _ => .lt
  | _, up => .gt
  | name s, name t => if s < t then .lt else if t < s then .gt else .eq

end Component

/-- A path as it is written. -/
structure Path where
  /-- Its text. -/
  text : String
  deriving DecidableEq, Repr, Inhabited

namespace Path

/-! ## §1. Components. -/

/-- The component that a piece between two slashes stands for, if it stands for one. -/
def componentOf? : String → Option Component
  | "" => none
  | "." => none
  | ".." => some .up
  | s => some (.name s)

/-- The components that the pieces of a path stand for. -/
def componentsOf : List String → List Component
  | [] => []
  | "" :: ps =>
    if ps.isEmpty then [] else .root :: ps.filterMap componentOf?
  | "." :: ps => .current :: ps.filterMap componentOf?
  | ps => ps.filterMap componentOf?

/-- The components of a path. -/
def components (p : Path) : List Component := componentsOf (cutText '/' p.text)

/-- The path with the given components. -/
def ofComponents : List Component → Path
  | .root :: cs => ⟨"/" ++ joinText '/' (cs.map Component.text)⟩
  | cs => ⟨joinText '/' (cs.map Component.text)⟩

/-- Two paths name the same place when they have the same components. -/
def same (p q : Path) : Bool := p.components == q.components

/-- The order of paths: by the first components that differ. -/
def compare (p q : Path) : Ordering :=
  compareLists p.components q.components
where
  /-- The order of two lists of components. -/
  compareLists : List Component → List Component → Ordering
    | [], [] => .eq
    | [], _ => .lt
    | _, [] => .gt
    | a :: as, b :: bs =>
      match a.compare b with
      | .eq => compareLists as bs
      | o => o

/-- Whether `p` comes before `q` or names the same place. -/
def le (p q : Path) : Bool := p.compare q != .gt

/-- Whether a path begins at the root. -/
def isAbsolute (p : Path) : Bool := p.text.toList.head? == some '/'

/-! ## §2. Putting paths together and taking them apart. -/

/-- The path `q` as seen from `p`: an absolute `q` stands for itself. -/
def join (p q : Path) : Path :=
  if q.isAbsolute then q
  else if p.text.isEmpty || p.text.toList.getLast? == some '/' then ⟨p.text ++ q.text⟩
  else ⟨p.text ++ "/" ++ q.text⟩

/-- The name at the end of a path, if it ends with one. -/
def fileName? (p : Path) : Option String :=
  match p.components.getLast? with
  | some (.name s) => some s
  | _ => none

/-- The pieces of a path from last to first, without those at the end that stand for nothing.
    The first piece of the path always stays. -/
def dropVoid : List String → List String
  | s :: t :: r => if s == "" || s == "." then dropVoid (t :: r) else s :: t :: r
  | r => r

/-- The path without its last component, if it has one besides the root. -/
def parent? (p : Path) : Option Path :=
  match dropVoid (cutText '/' p.text).reverse with
  | [] => none
  | [""] => none
  | _ :: r =>
    match dropVoid r with
    | [""] => some ⟨"/"⟩
    | r => some ⟨joinText '/' r.reverse⟩

/-- The directory that holds the place named by `p`, or the path itself if there is none. -/
def parent (p : Path) : Path := p.parent?.getD p

/-- The path with another name in place of the one at its end. -/
def withFileName (p : Path) (name : String) : Path :=
  match p.fileName?, p.parent? with
  | some _, some q => q.join ⟨name⟩
  | _, _ => p.join ⟨name⟩

/-- The extension of the name at the end: what follows its last dot, unless nothing comes before
    that dot. -/
def extension? (p : Path) : Option String := do
  let name ← p.fileName?
  match lastPiece '.' name with
  | (some before, after) => if before == "" then none else some after
  | (none, _) => none

/-- The path as seen from the directory `base`, if it lies there or further down. -/
def below? (p base : Path) : Option (List Component) :=
  if base.components.isPrefixOf p.components then
    some (p.components.drop base.components.length)
  else none

/-- Whether a path lies at `base` or further down. -/
def isUnder (p base : Path) : Bool := base.components.isPrefixOf p.components

/-- The names among components, as they are written. -/
def textsOf (cs : List Component) : List String := cs.map Component.text

end Path

/-- Paths in order, each place once at most if the list has it once. -/
def sortPaths (ps : List Path) : List Path := ps.mergeSort Path.le

end ModuleMove
