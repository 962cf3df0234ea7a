import ModuleMove.Disk.Node
import ModuleMove.Failure

/-!
# DISKS — a tree with a working directory

A disk answers what is at a path.  A path is followed step by step: each step has to be taken
from a directory, and `..` goes up to the directory that was entered last.  A relative path is
followed from the working directory.  A disk remembers what has been done to it, so that the same
can be done to the files that it stands for.
-/

namespace ModuleMove

/-- Something done to a disk. -/
inductive Deed where
  /-- A text was written into a file. -/
  | wrote (path : Path) (text : String)
  /-- A directory was made. -/
  | made (path : Path)
  /-- A file or directory was renamed. -/
  | renamed (old new : Path)
  deriving DecidableEq, Repr, Inhabited

/-- A tree of files and a directory in it from which relative paths are followed. -/
structure Disk where
  /-- The directory at the root. -/
  top : Node
  /-- The names on the way to the working directory. -/
  here : List String
  /-- What has been done, last first. -/
  deeds : List Deed := []
  deriving Inhabited

namespace Disk

/-! ## §1. Following paths. -/

/-- The steps of a path, as it is written; an empty one and `.` stay where they are. -/
def stepsOf (p : Path) : List String :=
  match cutText '/' p.text with
  | "" :: ps => ps
  | ps => ps

/-- Follows steps from the node at a place, of which the names on the way are given. -/
def follow (top : Node) : List String → Node → List String → Except FileTrouble (List String × Node)
  | place, n, [] => .ok (place, n)
  | place, n, s :: ss =>
    match n with
    | .file _ => .error .notDirectory
    | .directory es =>
      if s == "" || s == "." then follow top place n ss
      else if s == ".." then
        match top.find? place.dropLast with
        | some m => follow top place.dropLast m ss
        | none => .error .missing
      else
        match Node.child? s es with
        | some m => follow top (place ++ [s]) m ss
        | none => .error .missing

/-- The names on the way to the place from which a path is followed. -/
def startOf (d : Disk) (p : Path) : List String := if p.isAbsolute then [] else d.here

/-- Follows steps from the place from which the path `p` is followed. -/
def followFrom (d : Disk) (p : Path) (steps : List String) :
    Except FileTrouble (List String × Node) :=
  match d.top.find? (d.startOf p) with
  | some n => follow d.top (d.startOf p) n steps
  | none => .error .missing

/-- What is at a path, and the names on the way to it. -/
def locate (d : Disk) (p : Path) : Except FileTrouble (List String × Node) :=
  if p.text.isEmpty then .error .missing else d.followFrom p (stepsOf p)

/-- What is at a path, if something is. -/
def node? (d : Disk) (p : Path) : Option Node := (d.locate p).toOption.map (·.2)

/-! ## §2. What is there. -/

/-- Whether something is at a path. -/
def has (d : Disk) (p : Path) : Bool := (d.node? p).isSome

/-- Whether a directory is at a path. -/
def hasDirectory (d : Disk) (p : Path) : Bool :=
  match d.node? p with
  | some n => n.isDirectory
  | none => false

/-- Whether a file is at a path. -/
def hasFile (d : Disk) (p : Path) : Bool :=
  match d.node? p with
  | some n => !n.isDirectory
  | none => false

/-- The text of the file at a path. -/
def readText (d : Disk) (p : Path) : Except FileTrouble String :=
  match d.locate p with
  | .error e => .error e
  | .ok (_, .directory _) => .error .isDirectory
  | .ok (_, .file (.bytes _)) => .error .notText
  | .ok (_, .file (.text s)) => .ok s

/-- The entries of the directory at a path. -/
def list (d : Disk) (p : Path) : Except FileTrouble (List (String × Node)) :=
  match d.locate p with
  | .error e => .error e
  | .ok (_, .directory es) => .ok es
  | .ok (_, .file _) => .error .notDirectory

/-- The absolute path, without detours, of what is at a path. -/
def realPath (d : Disk) (p : Path) : Except FileTrouble Path :=
  (d.locate p).map fun r => ⟨"/" ++ joinText '/' r.1⟩

end Disk

end ModuleMove
