import ModuleMove.Disk.Basic
import ModuleMove.Project.Basic

/-!
# PROBING — the file that a module path stands for

A module path may leave out the extension of the file, or name the directory of an index file.
-/

namespace ModuleMove

/-- A path with an extension behind it. -/
def Path.withExtension (p : Path) (ext : String) : Path := ⟨p.text ++ "." ++ ext⟩

/-- The file that a module path stands for: the one of that path, one with a source extension
    behind it, or an index file in it. -/
def probe (d : Disk) (extensions : List String) (base : Path) : Option Path :=
  if d.hasFile base then some base
  else
    ((extensions.map base.withExtension).find? d.hasFile).orElse fun _ =>
      (extensions.map fun ext => base.join ⟨"index." ++ ext⟩).find? d.hasFile

/-- The barrel of a directory: the first file that has one of the names of barrels and a source
    extension. -/
def findBarrel (d : Disk) (p : Project) (dir : Path) : Option Path :=
  p.config.barrelNames.findSome? fun name =>
    (p.extensions.map fun ext => dir.join ⟨name ++ "." ++ ext⟩).find? d.hasFile

/-- What a path names in a project, and the extension that had to be put behind it, if any. -/
def locateUnit (d : Disk) (p : Project) (path : Path) :
    Except Failure (Path × Option String) :=
  let path := p.absolute path
  if d.has path then .ok (path, none)
  else
    match p.extensions.find? fun ext => d.hasFile (path.withExtension ext) with
    | some ext => .ok (path.withExtension ext, some ext)
    | none => .error (.refused (.notFound path))

end ModuleMove
