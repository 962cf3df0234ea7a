import ModuleMove.Source.Reference

/-!
# DEPENDENCY MAPS — which files refer to a unit, and how

A dependency map lists files in the order of their paths, each with its references in the order
of its text.  A file without references is not in the map, and two spellings of one path are
one file: the spelling that came first stays.
-/

namespace ModuleMove

/-- Files and their references to a unit. -/
structure DependencyMap where
  /-- The files in the order of their paths, with their references. -/
  entries : List (Path × List Reference)
  deriving Repr

namespace DependencyMap

/-- The map without files. -/
def empty : DependencyMap := ⟨[]⟩

/-- Puts references of a file in at its place, after those that it has already. -/
def insertEntry (file : Path) (rs : List Reference) :
    List (Path × List Reference) → List (Path × List Reference)
  | [] => [(file, rs)]
  | (p, qs) :: es =>
    match file.compare p with
    | .lt => (file, rs) :: (p, qs) :: es
    | .eq => (p, qs ++ rs) :: es
    | .gt => (p, qs) :: insertEntry file rs es

/-- The map with more references of a file. -/
def insert (m : DependencyMap) (file : Path) (rs : List Reference) : DependencyMap :=
  if rs.isEmpty then m else ⟨insertEntry file rs m.entries⟩

/-- The references of a file, if it has any. -/
def get? (m : DependencyMap) (file : Path) : Option (List Reference) :=
  (m.entries.find? fun e => e.1.same file).map (·.2)

/-- The files of the map. -/
def files (m : DependencyMap) : List Path := m.entries.map (·.1)

/-- The number of files. -/
def size (m : DependencyMap) : Nat := m.entries.length

/-- The number of references in all files. -/
def referenceCount (m : DependencyMap) : Nat := m.entries.foldr (fun i n => i.2.length + n) 0

end DependencyMap

end ModuleMove
