import ModuleMove.Path.Basic
import ModuleMove.Source.Language
import ModuleMove.Source.Span

/-!
# REFERENCES — what a source file says about other modules

A scanned file is a list of references in the order of its text, the names that it declares at
its top level, and the places of its top-level export statements.  Offsets are only good for
the text that was scanned.
-/

namespace ModuleMove

/-- The two ways to refer to a module. -/
inductive ReferenceKind where
  /-- The module is used. -/
  | imports
  /-- Names of the module are passed on. -/
  | exports
  deriving DecidableEq, Repr, Inhabited

/-- The kind's name in reports. -/
def ReferenceKind.name : ReferenceKind → String
  | .imports => "import"
  | .exports => "export"

/-- Whether a specifier names a file of the project rather than a package. -/
def isRelativeSpecifier (s : String) : Bool :=
  match s.toList with
  | '.' :: _ => true
  | '/' :: _ => true
  | _ => false

/-- A place in a source file that names a module. -/
structure Reference where
  /-- The file. -/
  owner : Path
  /-- The text between the quotes. -/
  specifier : String
  /-- The bytes of the specifier. -/
  span : Span
  /-- The bytes of the statement or call that it stands in. -/
  statement : Span
  /-- How the module is referred to. -/
  kind : ReferenceKind
  /-- The names passed on; `*` for all of them. -/
  exported : List String
  /-- The line of the specifier; the first line is 1. -/
  line : Nat
  deriving DecidableEq, Repr, Inhabited

namespace Reference

/-- Whether the module is a file of the project. -/
def isRelative (r : Reference) : Bool := isRelativeSpecifier r.specifier

/-- Whether all names of the module are passed on. -/
def isWildcard (r : Reference) : Bool := r.exported.contains "*"

end Reference

/-- A source file that has been scanned. -/
structure ScannedFile where
  /-- The file. -/
  path : Path
  /-- Its language. -/
  language : Language
  /-- Its references, in the order of the text. -/
  references : List Reference
  /-- The names that it declares at its top level, each once. -/
  declared : List String
  /-- The places of its top-level export statements. -/
  exportStatements : List Span
  deriving DecidableEq, Repr, Inhabited

namespace ScannedFile

/-- The references that pass names on. -/
def exports (f : ScannedFile) : List Reference := f.references.filter (·.kind == .exports)

/-- The references to files of the project. -/
def relativeReferences (f : ScannedFile) : List Reference := f.references.filter (·.isRelative)

end ScannedFile

end ModuleMove
