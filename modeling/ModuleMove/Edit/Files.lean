import ModuleMove.Disk.Change
import ModuleMove.Edit.Batch

/-!
# EDITING FILES — batches of edits on the disk

Edits are grouped by file.  The edits of one file are made all together or not at all, and what
happens to one file does not matter to the others.
-/

namespace ModuleMove

/-- What happened to a file. -/
inductive FileStatus where
  /-- All its edits were made. -/
  | succeeded
  /-- It is not what the edits were made for; nothing was written. -/
  | stale (reason : String)
  /-- It could not be read or written; nothing was written. -/
  | unusable (reason : String)
  deriving DecidableEq, Repr, Inhabited

/-- What happened to a file and its edits. -/
structure FileOutcome where
  /-- The file. -/
  path : Path
  /-- What happened. -/
  status : FileStatus
  /-- The edits that were made, in words. -/
  descriptions : List String
  /-- The number of edits. -/
  edits : Nat
  deriving DecidableEq, Repr, Inhabited

/-- Whether all edits of a file were made. -/
def FileOutcome.isSuccess (o : FileOutcome) : Bool := o.status == .succeeded

/-- The status of a file with a failure. -/
def FileStatus.ofFailure (f : Failure) : FileStatus :=
  if f.isStale then .stale f.message else .unusable f.message

/-- The disk with all edits of a file made, and the edits in words. -/
def editFile? (d : Disk) (path : Path) (es : List Edit) :
    Except Failure (Disk × List String) :=
  match d.readText path with
  | .error e => .error (.file path e)
  | .ok content =>
    match applyBatch path content es with
    | .error f => .error f
    | .ok (updated, descriptions) =>
      match d.write path updated with
      | .error e => .error (.file path e)
      | .ok d => .ok (d, descriptions)

/-- Makes the edits of a file. -/
def editFile (d : Disk) (path : Path) (es : List Edit) : FileOutcome × Disk :=
  match editFile? d path es with
  | .ok (d, descriptions) => (⟨path, .succeeded, descriptions, es.length⟩, d)
  | .error f => (⟨path, .ofFailure f, [], es.length⟩, d)

/-- Puts an edit behind those of its file. -/
def addToFile (e : Edit) : List (Path × List Edit) → List (Path × List Edit)
  | [] => [(e.target, [e])]
  | (p, es) :: gs =>
    match e.target.compare p with
    | .lt => (e.target, [e]) :: (p, es) :: gs
    | .eq => (p, es ++ [e]) :: gs
    | .gt => (p, es) :: addToFile e gs

/-- The edits of each file, the files in the order of their paths. -/
def editsByFile (es : List Edit) : List (Path × List Edit) :=
  es.foldl (fun gs e => addToFile e gs) []

/-- Makes the edits of files one after the other. -/
def editFiles (d : Disk) : List (Path × List Edit) → List FileOutcome × Disk
  | [] => ([], d)
  | (p, es) :: gs =>
    let (o, d) := editFile d p es
    let (os, d) := editFiles d gs
    (o :: os, d)

/-- Makes edits of any files. -/
def applyEdits (d : Disk) (es : List Edit) : List FileOutcome × Disk :=
  editFiles d (editsByFile es)

end ModuleMove
