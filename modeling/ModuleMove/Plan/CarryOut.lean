import ModuleMove.Edit.Files
import ModuleMove.Plan.Whole

/-!
# CARRYING OUT — from a plan to the disk

The edits of a plan are made first, while all files are at their old places.  Renaming is a step of
its own, and nothing is renamed unless all destinations are free.
-/

namespace ModuleMove

/-- A plan and what came of it. -/
structure MoveReport where
  /-- The plan. -/
  plan : Plan
  /-- Whether edits were planned only. -/
  dryRun : Bool
  /-- What happened to the files. -/
  outcomes : List FileOutcome

namespace MoveReport

/-- Whether no file refers to the unit. -/
def noDependents (r : MoveReport) : Bool := r.plan.dependents.isEmpty

/-- What happened to the files that could not be edited. -/
def failed (r : MoveReport) : List FileOutcome := r.outcomes.filter fun o => !o.isSuccess

/-- The number of files that edits are about. -/
def fileCount (es : List Edit) : Nat := (editsByFile es).length

/-- What came of the plan, in one sentence. -/
def summary (r : MoveReport) : String :=
  if r.plan.edits.isEmpty then "No dependent files to resolve."
  else if r.dryRun then
    "Would apply " ++ toString r.plan.edits.length ++ " edit(s) across " ++
      toString (fileCount r.plan.edits) ++ " file(s)."
  else
    let failed := r.failed.length
    "Updated " ++ toString (r.outcomes.length - failed) ++ " of " ++ toString r.outcomes.length ++
      " file(s)" ++ (if 0 < failed then ", " ++ toString failed ++ " failed" else "") ++ "."

end MoveReport

/-- Plans a move and makes its edits, unless the project wants them planned only. -/
def carryOut (d : Disk) (p : Project) (old new : Path) : Except Failure (MoveReport × Disk) := do
  let plan ← plan d p old new
  if p.config.dryRun then pure (⟨plan, true, []⟩, d)
  else
    let (outcomes, d) := applyEdits d plan.edits
    pure (⟨plan, false, outcomes⟩, d)

/-! ## §1. Renaming. -/

/-- Why something could not be renamed. -/
inductive RenameTrouble where
  /-- There is something at a destination. -/
  | destinationExists (path : Path)
  /-- The directory of a destination could not be made. -/
  | directory (path : Path) (trouble : FileTrouble)
  /-- The renaming itself failed. -/
  | rename (old new : Path) (trouble : FileTrouble)

/-- Renames one file or directory, and makes the directory that it goes to; that directory stays
    if the renaming fails. -/
def renameInto (d : Disk) (old new : Path) : Except RenameTrouble Unit × Disk :=
  match (new.parent?.map d.makeDirectories).getD (.ok d) with
  | .error e => (.error (.directory new.parent e), d)
  | .ok d =>
    match d.rename old new with
    | .error e => (.error (.rename old new e), d)
    | .ok d => (.ok (), d)

/-- Renames one after the other; stops at the first that fails. -/
def renameEach (d : Disk) : List (Path × Path) → Except RenameTrouble Unit × Disk
  | [] => (.ok (), d)
  | (old, new) :: ms =>
    match renameInto d old new with
    | (.error e, d) => (.error e, d)
    | (.ok (), d) => renameEach d ms

/-- Renames files and directories if all destinations are free. -/
def renameAll (d : Disk) (ms : List (Path × Path)) : Except RenameTrouble Unit × Disk :=
  match ms.find? fun m => d.has m.2 with
  | some m => (.error (.destinationExists m.2), d)
  | none => renameEach d ms

end ModuleMove
