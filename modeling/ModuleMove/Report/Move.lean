import ModuleMove.Plan.CarryOut
import ModuleMove.Report.Delta

/-!
# REPORTS ON MOVES — what a move does or would do

For programs, a report has every part of the plan under its name.  For people, it lists edits,
failures, warnings and renames, with paths as they are seen from the root of the project.
-/

namespace ModuleMove

/-- A path as it is seen from a directory, if it lies there. -/
def Path.seenFrom (p base : Path) : String :=
  match p.below? base with
  | some rest => joinText '/' (Path.textsOf rest)
  | none => p.text

/-! ## §1. For programs. -/

/-- The kind's name for programs. -/
def UnitStyle.label : UnitStyle → String
  | file => "File"
  | directory => "Directory"

/-- A path for programs. -/
def Path.data (p : Path) : Data := .text p.text

/-- A change for programs. -/
def Change.data : Change → Data
  | .insert t => .record [("kind", .text "insert"), ("text", .text t)]
  | .remove t => .record [("kind", .text "remove"), ("expected", .text t)]
  | .replace old new => .record [("kind", .text "replace"), ("old", .text old), ("new", .text new)]

/-- An edit for programs. -/
def Edit.data (e : Edit) : Data :=
  .record [("target", e.target.data), ("offset", .number e.offset), ("op", e.change.data)]

/-- A warning for programs. -/
def Warning.data (w : Warning) : Data :=
  .record [("path", w.path.data), ("message", .text w.message)]

/-- A rename for programs. -/
def renameData (m : Path × Path) : Data := .list [m.1.data, m.2.data]

/-- A plan for programs. -/
def Plan.data (p : Plan) : Data :=
  .record [("old", p.old.data), ("new", p.new.data), ("style", .text p.style.label),
    ("delta", p.delta.data), ("dependents", .list (p.dependents.map Path.data)),
    ("travelling", .list (p.travelling.map Path.data)), ("edits", .list (p.edits.map Edit.data)),
    ("warnings", .list (p.warnings.map Warning.data)), ("files_scanned", .number p.filesScanned),
    ("moves", .list (p.moves.map renameData))]

/-- The status of a file for programs. -/
def FileStatus.data : FileStatus → Data
  | succeeded => .text "succeeded"
  | stale reason => .record [("stale_edit", .text reason)]
  | unusable reason => .record [("io", .text reason)]

/-- What happened to a file for programs. -/
def FileOutcome.data (o : FileOutcome) : Data :=
  .record [("path", o.path.data), ("status", o.status.data),
    ("descriptions", .texts o.descriptions), ("edits", .number o.edits)]

namespace MoveReport

/-- The last phase of a move; one that fails has no report. -/
def phase : String := "Done"

/-- The fields of a report for programs. -/
def fields (r : MoveReport) : List (String × Data) :=
  [("plan", r.plan.data), ("dry_run", .truth r.dryRun),
    ("outcomes", .list (r.outcomes.map FileOutcome.data)), ("phase", .text phase)]

/-- A report for programs. -/
def data (r : MoveReport) : Data := .record r.fields

/-! ## §2. For people. -/

/-- A change in words. -/
def changeLine : Change → String
  | .insert t => "insert " ++ quoted t
  | .remove t => "remove " ++ quoted t
  | .replace old new => quoted old ++ " -> " ++ quoted new

/-- Edits in words, those of one file in a row under its name. -/
def editLines (root : Path) : Option Path → List Edit → String
  | _, [] => ""
  | current, e :: es =>
    let sameFile :=
      match current with
      | some p => p.same e.target
      | none => false
    (if sameFile then "" else "  " ++ e.target.seenFrom root ++ "\n") ++
      "    @" ++ padRight 6 (toString e.offset) ++ " " ++ changeLine e.change ++ "\n" ++
      editLines root (some e.target) es

/-- A part of a report under a heading, if there is anything to say. -/
def part (heading : String) (lines : List String) : String :=
  if lines.isEmpty then ""
  else "\n" ++ heading ++ "\n" ++ String.join (lines.map fun l => "  " ++ l ++ "\n")

/-- Why a file could not be edited. -/
def reason : FileStatus → String
  | .succeeded => ""
  | .stale s => s
  | .unusable s => s

/-- A report in words; `moved` are the renames that were made. -/
def words (r : MoveReport) (moved : List (Path × Path)) (root : Path) : String :=
  let p := r.plan
  p.old.seenFrom root ++ " -> " ++ p.new.seenFrom root ++ " (" ++ p.delta.render ++ ")\n" ++
    (if p.edits.isEmpty then ""
      else (if r.dryRun then "\nPlanned edits:\n" else "\nEdits:\n") ++
        editLines root none p.edits) ++
    part "Failed:" (r.failed.map fun o => o.path.seenFrom root ++ ": " ++ reason o.status) ++
    part "Warnings:" (p.warnings.map fun w => w.path.seenFrom root ++ ": " ++ w.message) ++
    part "Moved:" (moved.map fun m => m.1.seenFrom root ++ " -> " ++ m.2.seenFrom root) ++
    "\n" ++ r.summary

/-- A report in a format. -/
def report (format : Format) (r : MoveReport) (moved : List (Path × Path)) (root : Path) :
    String :=
  match format with
  | .plain => r.words moved root
  | _ =>
    (Data.record (("summary", .text r.summary) :: r.fields ++
      [("moved", .list (moved.map renameData))])).render format

end MoveReport

end ModuleMove
