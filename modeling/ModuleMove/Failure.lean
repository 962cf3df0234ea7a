import ModuleMove.Path.Basic
import ModuleMove.Text.Quoted

/-!
# FAILURES — why something could not be done

A failure is kept as its cause; its wording is a function of the cause.  Two causes, a stale
edit and overlapping edits, mean that a file is no longer what a plan was made for.
-/

namespace ModuleMove

/-! ## §1. Refused moves. -/

/-- Why a move is refused before anything is read. -/
inductive Refusal where
  /-- The old and the new path are the same. -/
  | samePlace
  /-- The path is not inside the project, or is all of it. -/
  | outsideRoot (path : Path)
  /-- A directory would end up inside itself. -/
  | intoItself
  /-- A barrel is kept up to date and not moved. -/
  | barrelFile
  /-- A spec file moves with its unit and not alone. -/
  | specFile
  /-- There is something at the destination. -/
  | destinationExists (path : Path)
  /-- The file is in no known language. -/
  | unsupportedFile (path : Path)
  /-- There is nothing to move. -/
  | notFound (path : Path)
  deriving DecidableEq, Repr

/-- The wording of a refusal. -/
def Refusal.message : Refusal → String
  | samePlace => "old and new path are the same"
  | outsideRoot p => p.text ++ " is outside the project root"
  | intoItself => "cannot move a directory into itself"
  | barrelFile => "cannot promote a barrel file"
  | specFile => "cannot promote a spec file"
  | destinationExists p => "destination already exists: " ++ p.text
  | unsupportedFile p => "not a supported source file: " ++ p.text
  | notFound p => "no such file or directory: " ++ p.text

/-! ## §2. Trouble with files. -/

/-- Why a file or directory could not be used. -/
inductive FileTrouble where
  /-- There is nothing of that name. -/
  | missing
  /-- There is something of that name already. -/
  | exists
  /-- A file stands where a directory is needed. -/
  | notDirectory
  /-- A directory stands where a file is needed. -/
  | isDirectory
  /-- A directory would end up inside itself. -/
  | invalid
  /-- A directory that would be replaced is not empty. -/
  | notEmpty
  /-- The content is not text. -/
  | notText
  /-- Some other reason, in words. -/
  | other (reason : String)
  deriving DecidableEq, Repr

/-- The wording of the trouble. -/
def FileTrouble.message : FileTrouble → String
  | missing => "No such file or directory (os error 2)"
  | FileTrouble.exists => "File exists (os error 17)"
  | notDirectory => "Not a directory (os error 20)"
  | isDirectory => "Is a directory (os error 21)"
  | invalid => "Invalid argument (os error 22)"
  | notEmpty => "Directory not empty (os error 39)"
  | notText => "stream did not contain valid UTF-8"
  | other reason => reason

/-! ## §3. Failures. -/

/-- Why something could not be done. -/
inductive Failure where
  /-- A source text does not follow the grammar of its language. -/
  | parse (path : Path) (line column : Nat) (what : String)
  /-- A file or directory could not be used. -/
  | file (path : Path) (trouble : FileTrouble)
  /-- A text is not what an edit expects. -/
  | staleEdit (path : Path) (offset : Nat) (expected found : String)
  /-- Two edits of one file cannot both be made. -/
  | overlappingEdits (path : Path) (first second : Nat)
  /-- A move is refused. -/
  | refused (reason : Refusal)
  deriving DecidableEq, Repr

namespace Failure

/-- The wording of a failure. -/
def message : Failure → String
  | parse p line column what =>
    p.text ++ ":" ++ toString line ++ ":" ++ toString column ++ ": parse error: " ++ what
  | file p trouble => p.text ++ ": " ++ trouble.message
  | staleEdit p offset expected found =>
    p.text ++ ": stale edit at offset " ++ toString offset ++ ": expected " ++ quoted expected ++
      ", found " ++ quoted found
  | overlappingEdits p first second =>
    p.text ++ ": overlapping edits at offsets " ++ toString first ++ " and " ++ toString second
  | refused reason => "invalid move: " ++ reason.message

/-- Whether a source text was at fault. -/
def isParse : Failure → Bool
  | parse .. => true
  | _ => false

/-- Whether a file is no longer what a plan was made for. -/
def isStale : Failure → Bool
  | staleEdit .. => true
  | overlappingEdits .. => true
  | _ => false

end Failure

end ModuleMove
