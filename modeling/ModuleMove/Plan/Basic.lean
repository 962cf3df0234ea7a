import ModuleMove.Dependents.Index
import ModuleMove.Edit.Basic
import ModuleMove.Project.Probe
import ModuleMove.Unit.Moves

/-!
# PREPARING A MOVE — what is checked before anything is planned

A move is checked, then the project is scanned once.  A travelling file that cannot be scanned
makes the move fail; any other is only warned about.
-/

namespace ModuleMove

/-- Something about a file that the user should know. -/
structure Warning where
  /-- The file. -/
  path : Path
  /-- What should be known. -/
  message : String
  deriving DecidableEq, Repr, Inhabited

/-- Edits, and what should be known about them. -/
structure EditSet where
  /-- The edits. -/
  edits : List Edit
  /-- The warnings. -/
  warnings : List Warning

/-- All that is known when the edits of a move are planned. -/
structure Preparation where
  /-- The project. -/
  project : Project
  /-- The disk. -/
  disk : Disk
  /-- What is moved. -/
  unit : MovedUnit
  /-- How its directory changes. -/
  delta : Delta
  /-- The source files. -/
  index : Index

namespace Preparation

/-! ## §1. Checking a move. -/

/-- The destination with the extension that the old path did not name, unless it has a source
    extension of its own. -/
def completed (p : Project) (new : Path) : Option String → Path
  | none => new
  | some ext =>
    let name := new.fileName?.getD ""
    if stripSourceExtension name p.extensions == name then new.withExtension ext else new

/-- Why what is at `old` cannot be moved to `new`, as far as its kind goes. -/
def kindRefusal? (d : Disk) (p : Project) (old new : Path) : Option Refusal :=
  if d.hasDirectory old then
    if new.isUnder old then some .intoItself else none
  else if (Scan.languageOf? old).isNone then some (.unsupportedFile old)
  else if p.isBarrel old then some .barrelFile
  else if p.isSpec old then some .specFile
  else none

/-- The paths of a move without detours and with extensions, and its delta, if it may be made. -/
def check (d : Disk) (p : Project) (old new : Path) : Except Failure (Path × Path × Delta) := do
  let (old, added) ← locateUnit d p old
  let new := completed p (p.absolute new) added
  let delta ← Delta.compute old new p.root
  match kindRefusal? d p old new with
  | some r => .error (.refused r)
  | none => if d.has new then .error (.refused (.destinationExists new)) else .ok (old, new, delta)

/-- Fails if something is at the destination of something that is renamed. -/
def checkDestinations (d : Disk) (u : MovedUnit) : Except Failure Unit :=
  match u.moves d with
  | .error e => .error (.file u.oldParent e)
  | .ok ms =>
    match ms.find? fun m => d.has m.2 with
    | some m => .error (.refused (.destinationExists m.2))
    | none => .ok ()

/-! ## §2. Preparing. -/

/-- The failure of the first travelling file that has one. -/
def fatal? (x : Index) : Option Failure := x.travelling.findSome? x.failure?

/-- Checks a move and scans the project. -/
def make (d : Disk) (p : Project) (old new : Path) (parse : Parser := Grammar.parse) :
    Except Failure Preparation := do
  let (old, new, delta) ← check d p old new
  let u := MovedUnit.make d p old new delta
  checkDestinations d u
  let x ← buildIndex d p u parse
  match fatal? x with
  | some f => .error f
  | none => .ok ⟨p, d, u, delta, x⟩

end Preparation

/-- The warnings about files that could not be scanned. -/
def Index.skipWarnings (x : Index) : List Warning :=
  x.failures.map fun (path, f) => ⟨path, "skipped: " ++ f.message⟩

/-- The directory of a file. -/
def Project.directoryOf (p : Project) (file : Path) : Path := file.parent?.getD p.root

end ModuleMove
