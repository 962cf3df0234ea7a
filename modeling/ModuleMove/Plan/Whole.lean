import ModuleMove.Plan.Barrel

/-!
# PLANS — everything that a move will do

A plan holds the edits of all files and the renames that follow them.  Where a barrel loses a line,
nothing in that line is edited as well.
-/

namespace ModuleMove

/-- Everything that a move will do. -/
structure Plan where
  /-- Where the unit is. -/
  old : Path
  /-- Where it goes. -/
  new : Path
  /-- Its kind. -/
  style : UnitStyle
  /-- How its directory changes. -/
  delta : Delta
  /-- The files that stay and name the unit. -/
  dependents : List Path
  /-- The files that travel. -/
  travelling : List Path
  /-- The edits, all made for the files as they are. -/
  edits : List Edit
  /-- The warnings. -/
  warnings : List Warning
  /-- The number of source files. -/
  filesScanned : Nat
  /-- What is renamed afterwards. -/
  moves : List (Path × Path)

/-- Whether an edit removes a stretch of a file that all of another edit lies in. -/
def Edit.swallows (removal e : Edit) : Bool :=
  match removal.change with
  | .remove _ => removal.target.same e.target && removal.span.contains e.span
  | _ => false

namespace Preparation

/-- The edits of files that stay, without those in lines that barrels lose. -/
def keptDependentEdits (x : Preparation) : List Edit :=
  x.dependentEdits.edits.filter fun e => !x.barrelEdits.edits.any fun r => r.swallows e

/-- The plan of a prepared move. -/
def plan (x : Preparation) : Plan where
  old := x.unit.old
  new := x.unit.new
  style := x.unit.style
  delta := x.delta
  dependents := x.index.dependents.files
  travelling := x.index.travelling
  edits := x.keptDependentEdits ++ x.ownEdits ++ x.barrelEdits.edits
  warnings := x.index.skipWarnings ++ x.barrelEdits.warnings ++ x.dependentEdits.warnings
  filesScanned := x.index.filesScanned
  moves := (x.unit.moves x.disk).toOption.getD []

end Preparation

/-- Plans a move. -/
def plan (d : Disk) (p : Project) (old new : Path) : Except Failure Plan := do
  pure (← Preparation.make d p old new).plan

/-! ## §1. Single steps. -/

/-- The edits of all files outside of the unit that refer to it. -/
def resolveDependents (d : Disk) (p : Project) (old new : Path) : Except Failure EditSet := do
  let x ← Preparation.make d p old new
  pure ⟨x.dependentEdits.edits, x.index.skipWarnings ++ x.dependentEdits.warnings⟩

/-- The edits of the references of the unit itself. -/
def resolveOwnReferences (d : Disk) (p : Project) (old new : Path) : Except Failure EditSet := do
  let x ← Preparation.make d p old new
  pure ⟨x.ownEdits, x.index.skipWarnings⟩

/-- The edits of the barrels of both directories. -/
def resolveAggregators (d : Disk) (p : Project) (old new : Path) : Except Failure EditSet := do
  let x ← Preparation.make d p old new
  pure ⟨x.barrelEdits.edits, x.index.skipWarnings ++ x.barrelEdits.warnings⟩

end ModuleMove
