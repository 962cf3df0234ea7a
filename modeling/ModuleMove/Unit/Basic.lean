import ModuleMove.Disk.Basic
import ModuleMove.Project.Basic

/-!
# UNITS — what is moved, from where and to where

A unit is a directory with everything in it, or a source file with its companions: the spec files
that share its name.  A unit is found in specifiers by its name, and a path is said to travel if
the move carries what it names along.
-/

namespace ModuleMove

/-- The two kinds of units. -/
inductive UnitStyle where
  /-- A source file with its companions. -/
  | file
  /-- A directory with everything in it. -/
  | directory
  deriving DecidableEq, Repr, Inhabited

/-- What is moved. -/
structure MovedUnit where
  /-- Where it is. -/
  old : Path
  /-- Where it goes. -/
  new : Path
  /-- Its kind. -/
  style : UnitStyle
  /-- Its name in specifiers. -/
  name : String
  /-- The name that it gets. -/
  newName : String
  /-- The directory that it is in. -/
  oldParent : Path
  /-- The directory that it goes to. -/
  newParent : Path
  /-- The extensions of source files. -/
  extensions : List String
  /-- The suffixes of companions. -/
  specSuffixes : List String
  deriving DecidableEq, Repr, Inhabited

namespace MovedUnit

/-! ## §1. Making. -/

/-- The name of a unit of some kind at a path. -/
def nameOf (style : UnitStyle) (extensions : List String) (path : Path) : String :=
  let name := path.fileName?.getD ""
  match style with
  | .file => stripSourceExtension name extensions
  | .directory => name

/-- The unit at `old` that is moved to `new`; the delta decides the directory that it goes to. -/
def make (d : Disk) (p : Project) (old new : Path) (delta : Delta) : MovedUnit :=
  let style : UnitStyle := if d.hasDirectory old then .directory else .file
  let oldParent := old.parent?.getD p.root
  ⟨old, new, style, nameOf style p.extensions old, nameOf style p.extensions new, oldParent,
    delta.applyTo oldParent, p.extensions, p.config.specSuffixes⟩

/-- The unit at a path that stays where it is. -/
def stationary (d : Disk) (p : Project) (path : Path) : MovedUnit :=
  make d p path path ⟨"", .noMove, 0, [], []⟩

/-- The path that a specifier of the unit names after the move. -/
def newModule (u : MovedUnit) : Path := u.newParent.join ⟨u.newName⟩

/-! ## §2. Names. -/

/-- Whether a text is a dot with the suffix of a companion. -/
def isCompanionEnd (u : MovedUnit) (rest : String) : Bool :=
  match afterStart? "." rest with
  | some suffix => u.specSuffixes.contains suffix
  | none => false

/-- Whether a stem is the name of the unit. -/
def isName (u : MovedUnit) (stem : String) : Bool := stem == u.name

/-- Whether a stem is the name of a companion of the unit. -/
def isCompanion (u : MovedUnit) (stem : String) : Bool :=
  match afterStart? u.name stem with
  | some rest => u.isCompanionEnd rest
  | none => false

/-- Whether a specifier names the unit: its last segment is the name of the unit or of a companion,
    or, for a directory, an earlier segment is its name. -/
def matchesSpecifier (u : MovedUnit) (specifier : String) : Bool :=
  match (cutText '/' specifier).reverse with
  | [] => false
  | last :: earlier =>
    let stem := stripSourceExtension last u.extensions
    u.isName stem || u.isCompanion stem || (u.style == .directory && earlier.contains u.name)

/-- The name that a file gets whose stem is that of the unit or of a companion. -/
def renamed? (u : MovedUnit) (fileName stem : String) : Option String :=
  match afterStart? u.name stem with
  | some rest =>
    if rest.isEmpty || u.isCompanionEnd rest then
      some (u.newName ++ String.ofList (fileName.toList.drop u.name.length))
    else none
  | none => none

/-- The name that a module in the directory of the unit gets, if it moves with the unit. -/
def relocatedName? (u : MovedUnit) (fileName : String) : Option String :=
  u.renamed? fileName (stripSourceExtension fileName u.extensions)

/-- The name that a file in the directory of the unit gets, if it has the unit's name and some
    extension. -/
def siblingName? (u : MovedUnit) (fileName : String) : Option String :=
  match lastPiece '.' fileName with
  | (some stem, _) => u.renamed? fileName stem
  | (none, _) => none

/-! ## §3. Places. -/

/-- Where a path leads after the move, if what it names is carried along.  The path may be that of
    a file or of a module, without an extension. -/
def relocate (u : MovedUnit) (path : Path) : Option Path :=
  match u.style with
  | .directory =>
    match path.below? u.old with
    | none => none
    | some [] => some u.newModule
    | some rest => some (u.newModule.join ⟨joinText '/' (Path.textsOf rest)⟩)
  | .file => do
    let dir ← path.parent?
    if dir.same u.oldParent then
      let name ← path.fileName?
      let renamed ← u.relocatedName? name
      some (u.newParent.join ⟨renamed⟩)
    else none

/-- Whether what a path names is carried along. -/
def travels (u : MovedUnit) (path : Path) : Bool := (u.relocate path).isSome

end MovedUnit

end ModuleMove
