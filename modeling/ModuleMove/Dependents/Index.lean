import ModuleMove.Dependents.Map
import ModuleMove.Discover
import ModuleMove.Scan
import ModuleMove.Unit.Basic

/-!
# THE INDEX — all source files of a project, as seen from one unit

Every source file that is found is scanned.  The files that travel with the unit are set apart;
of the others, the references that name the unit are kept.  A file that cannot be read or scanned
is a failure, and it is up to the caller whether that matters.
-/

namespace ModuleMove

/-- What is known about a project when a unit is moved. -/
structure Index where
  /-- The files that do not travel and name the unit, with their references that do. -/
  dependents : DependencyMap
  /-- The files that could be scanned. -/
  scanned : List ScannedFile
  /-- The files that travel, in the order of their paths. -/
  travelling : List Path
  /-- The files that could not be scanned, in the order of their paths, and why. -/
  failures : List (Path × Failure)
  /-- The number of source files. -/
  filesScanned : Nat

/-- Scans the file at a path. -/
def scanFile (d : Disk) (path : Path) (parse : Parser := Grammar.parse) :
    Except Failure ScannedFile :=
  match d.readText path with
  | .error e => .error (.file path e)
  | .ok source => scanWith parse path source

/-- Puts a failure in at its place; one that a path has already is replaced. -/
def insertFailure (path : Path) (f : Failure) : List (Path × Failure) → List (Path × Failure)
  | [] => [(path, f)]
  | (q, g) :: fs =>
    match path.compare q with
    | .lt => (path, f) :: (q, g) :: fs
    | .eq => (q, f) :: fs
    | .gt => (q, g) :: insertFailure path f fs

namespace Index

/-- What is known about a file, if it could be scanned. -/
def file? (x : Index) (path : Path) : Option ScannedFile := x.scanned.find? (·.path.same path)

/-- The failure of a file, if it has one. -/
def failure? (x : Index) (path : Path) : Option Failure :=
  (x.failures.find? (·.1.same path)).map (·.2)

/-- The references of a file that name the unit. -/
def naming (u : MovedUnit) (f : ScannedFile) : List Reference :=
  f.relativeReferences.filter fun r => u.matchesSpecifier r.specifier

/-- The index of files that were scanned or could not be. -/
def ofScans (u : MovedUnit) (skipped : List (Path × Failure))
    (scans : List (Path × Except Failure ScannedFile)) : Index :=
  let good := scans.filterMap fun (p, r) => r.toOption.map fun f => (p, f)
  let bad := scans.filterMap fun
    | (p, .error e) => some (p, e)
    | (_, .ok _) => none
  let staying := good.filter fun (p, _) => !u.travels p
  { dependents := staying.foldl (fun m (p, f) => m.insert p (naming u f)) .empty
    scanned := good.map (·.2)
    travelling := sortPaths ((scans.map (·.1)).filter u.travels)
    failures := (skipped ++ bad).foldl (fun fs (p, e) => insertFailure p e fs) []
    filesScanned := scans.length }

end Index

/-- The index of a project for a unit. -/
def buildIndex (d : Disk) (p : Project) (u : MovedUnit) (parse : Parser := Grammar.parse) :
    Except Failure Index := do
  let found ← discover d p
  pure (Index.ofScans u found.skipped (found.files.map fun f => (f.1, scanFile d f.1 parse)))

end ModuleMove
