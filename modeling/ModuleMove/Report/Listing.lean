import ModuleMove.Dependents.Listing
import ModuleMove.Report.Move

/-!
# REPORTS ON REFERENCES — who refers to a unit

For people, each reference has a line of its own with the file as seen from the root, and the last
line counts them.  A reference that only shares the unit's name is marked so.
-/

namespace ModuleMove

/-- The kind's name for programs. -/
def ReferenceKind.label : ReferenceKind → String
  | imports => "Import"
  | exports => "Export"

/-- A listed reference for programs. -/
def DependentReference.data (r : DependentReference) : Data :=
  .record [("file", r.file.data), ("line", .number r.line), ("specifier", .text r.specifier),
    ("kind", .text r.kind.label), ("resolves", .truth r.resolves)]

/-- A listed reference on one line for people. -/
def DependentReference.words (r : DependentReference) (root : Path) : String :=
  r.file.seenFrom root ++ ":" ++ toString r.line ++ "  " ++ padRight 6 r.kind.name ++ "  " ++
    r.specifier ++ (if r.resolves then "" else "  (name only)") ++ "\n"

namespace Listing

/-- A listing for programs. -/
def data (l : Listing) : Data :=
  .record [("unit", l.unit.data), ("style", .text l.style.label),
    ("references", .list (l.references.map DependentReference.data)),
    ("travelling", .list (l.travelling.map Path.data)),
    ("warnings", .list (l.warnings.map Warning.data)), ("files_scanned", .number l.filesScanned)]

/-- A listing in words. -/
def words (l : Listing) (root : Path) : String :=
  String.join (l.references.map fun r => r.words root) ++
    String.join (l.warnings.map fun w =>
      "warning: " ++ w.path.seenFrom root ++ ": " ++ w.message ++ "\n") ++
    toString l.references.length ++ " reference(s) to " ++ l.unit.seenFrom root ++ " (" ++
    toString (l.references.filter (·.resolves)).length ++ " resolve), " ++
    toString l.filesScanned ++ " file(s) scanned"

/-- A listing in a format. -/
def report (format : Format) (l : Listing) (root : Path) : String :=
  match format with
  | .plain => l.words root
  | _ => l.data.render format

end Listing

end ModuleMove
