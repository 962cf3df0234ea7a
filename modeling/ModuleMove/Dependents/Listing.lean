import ModuleMove.Plan.Basic

/-!
# LISTINGS — the references to a unit that stays where it is

A listing tells of each reference that names a unit whether it leads to the unit or only shares
its name.
-/

namespace ModuleMove

/-- A reference that names a unit. -/
structure DependentReference where
  /-- The file that it is in. -/
  file : Path
  /-- Its line. -/
  line : Nat
  /-- The specifier. -/
  specifier : String
  /-- How the unit is referred to. -/
  kind : ReferenceKind
  /-- Whether the specifier leads to the unit. -/
  resolves : Bool
  deriving DecidableEq, Repr, Inhabited

/-- The references to a unit. -/
structure Listing where
  /-- The unit. -/
  unit : Path
  /-- Its kind. -/
  style : UnitStyle
  /-- The references, file by file. -/
  references : List DependentReference
  /-- The files that would travel with the unit. -/
  travelling : List Path
  /-- The warnings. -/
  warnings : List Warning
  /-- The number of source files. -/
  filesScanned : Nat

/-- A reference of a file as it is listed. -/
def listed (p : Project) (u : MovedUnit) (file : Path) (r : Reference) : DependentReference :=
  let target := Specifier.resolve r.specifier (p.directoryOf file) p.root
  ⟨file, r.line, r.specifier, r.kind, u.travels target⟩

/-- Lists the references to what is at a path. -/
def listDependents (d : Disk) (p : Project) (path : Path) : Except Failure Listing := do
  let (path, _) ← locateUnit d p path
  if !Delta.inside p.root path then .error (.refused (.outsideRoot path))
  else
    let u := MovedUnit.stationary d p path
    let x ← buildIndex d p u
    pure {
      unit := path
      style := u.style
      references := x.dependents.entries.flatMap fun (file, rs) => rs.map (listed p u file)
      travelling := x.travelling
      warnings := x.skipWarnings
      filesScanned := x.filesScanned }

end ModuleMove
