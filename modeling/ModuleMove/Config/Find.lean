import ModuleMove.Config.Read
import ModuleMove.Disk.Basic

/-!
# FINDING CONFIGURATIONS — the configuration file of a project

A project has its configuration in one of two places under its root, of which the first that is
there counts.  A file that is named takes the place of both, and has to be there.
-/

namespace ModuleMove.Config

/-- Why a configuration could not be read. -/
inductive Trouble where
  /-- The file that was named is not there. -/
  | missing (path : Path)
  /-- The file could not be read. -/
  | unreadable (path : Path) (trouble : FileTrouble)
  /-- The file holds no configuration. -/
  | malformed (path : Path)
  deriving DecidableEq, Repr

/-- The trouble in words, followed by its cause. -/
def Trouble.chain : Trouble → List String
  | missing p => ["config file not found: " ++ p.text]
  | unreadable p e => ["Failed to read " ++ p.text, e.message]
  | malformed p => ["Failed to parse " ++ p.text, "TOML parse error"]

/-- The places of a configuration file under the root of a project. -/
def places : List String := [".promote/config.toml", "promote.toml"]

/-- The configuration file of a project, if there is one; `named` is a file to take instead. -/
def find? (d : Disk) (root : Path) : Option Path → Option Path
  | some named => if d.has named then some named else none
  | none => (places.map fun s => root.join ⟨s⟩).find? d.has

/-- The configuration in a file. -/
def loadFrom (d : Disk) (path : Path) : Except Trouble Config :=
  match d.readText path with
  | .error e => .error (.unreadable path e)
  | .ok s =>
    match ofText? s with
    | none => .error (.malformed path)
    | some c => .ok c

/-- The configuration of a project. -/
def load (d : Disk) (root : Path) (named : Option Path) : Except Trouble Config :=
  match find? d root named, named with
  | some path, _ => loadFrom d path
  | none, some path => .error (.missing path)
  | none, none => .ok default

end ModuleMove.Config
