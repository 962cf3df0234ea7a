import ModuleMove.Unit.Basic

/-!
# MOVES — the files and directories that are renamed

A directory is renamed as a whole.  A file takes along every file of its directory that has its
name or that of a companion, whatever the extension.
-/

namespace ModuleMove

/-- The order of moves: by the old path, then by the new one. -/
def moveLe (a b : Path × Path) : Bool :=
  match a.1.compare b.1 with
  | .lt => true
  | .eq => a.2.le b.2
  | .gt => false

namespace MovedUnit

/-- The new name of an entry of the unit's directory, if it is a file that goes along. -/
def entryName? (u : MovedUnit) : String × Node → Option String
  | (_, .directory _) => none
  | (name, .file _) => (u.relocatedName? name).orElse fun _ => u.siblingName? name

/-- The moves among entries of the unit's directory. -/
def movesAmong (u : MovedUnit) (es : List (String × Node)) : List (Path × Path) :=
  (es.filterMap fun e =>
    (u.entryName? e).map fun new => (u.oldParent.join ⟨e.1⟩, u.newParent.join ⟨new⟩)).mergeSort
    moveLe

/-- The old and new paths of what is renamed. -/
def moves (d : Disk) (u : MovedUnit) : Except FileTrouble (List (Path × Path)) :=
  match u.style with
  | .directory => .ok [(u.old, u.newModule)]
  | .file => (d.list u.oldParent).map u.movesAmong

end MovedUnit

end ModuleMove
