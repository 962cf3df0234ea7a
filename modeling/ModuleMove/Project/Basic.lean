import ModuleMove.Config.Basic
import ModuleMove.Specifier

/-!
# PROJECTS — a root directory and a configuration

Nothing outside the root of a project is looked at or moved.  Which files are barrels and which
are spec files is decided by their names alone.
-/

namespace ModuleMove

/-- A project. -/
structure Project where
  /-- Its root directory. -/
  root : Path
  /-- What it has chosen. -/
  config : Config
  deriving DecidableEq, Repr, Inhabited

namespace Project

/-- The project at `root`, without detours. -/
def ofRoot (root : Path) (config : Config) : Project := ⟨root.normalize, config⟩

/-- The extensions of the project's source files. -/
def extensions (p : Project) : List String := p.config.extensions

/-- The absolute form of a path that is read from the root. -/
def absolute (p : Project) (path : Path) : Path :=
  if path.isAbsolute then path.normalize else (p.root.join path).normalize

/-- Whether a path lies in the project. -/
def contains (p : Project) (path : Path) : Bool := path.isUnder p.root

/-- The name at the end of a path without its source extension, if it has one. -/
def sourceStem? (p : Project) (path : Path) : Option String := do
  let name ← path.fileName?
  let stem := stripSourceExtension name p.extensions
  if stem.length < name.length then some stem else none

/-- Whether a path has the name of a barrel. -/
def isBarrel (p : Project) (path : Path) : Bool :=
  match p.sourceStem? path with
  | some stem => p.config.barrelNames.contains stem
  | none => false

/-- Whether a stem ends with a dot and the given suffix, with something before the dot. -/
def endsInSuffix (stem suffix : String) : Bool :=
  match beforeEnd? suffix stem with
  | some before => 1 < before.length && (beforeEnd? "." before).isSome
  | none => false

/-- Whether a path has the name of a spec file. -/
def isSpec (p : Project) (path : Path) : Bool :=
  match p.sourceStem? path with
  | some stem => p.config.specSuffixes.any (endsInSuffix stem)
  | none => false

end Project

end ModuleMove
