import ModuleMove.Delta
import ModuleMove.Report.Data
import ModuleMove.Text.Quoted

/-!
# REPORTS ON DELTAS — how the directory changes, for people and for programs

An answer comes in one of three formats: words for people, and JSON on many lines or on one line
for programs.  For people, a delta is one line, with its texts in quotation marks.
-/

namespace ModuleMove

/-- How an answer is written. -/
inductive Format where
  /-- For people. -/
  | plain
  /-- As JSON on many lines. -/
  | indented
  /-- As JSON on one line. -/
  | compact
  deriving DecidableEq, Repr, Inhabited

/-- The format of the given name. -/
def Format.ofName? : String → Option Format
  | "text" => some .plain
  | "json" => some .indented
  | "compact" => some .compact
  | _ => none

/-- An answer for programs in a format; the format for people counts as many lines. -/
def Data.render (format : Format) (d : Data) : String :=
  match format with
  | .compact => d.compact
  | _ => d.indented 0

/-- A text with blanks behind it up to a width. -/
def padRight (width : Nat) (s : String) : String :=
  s ++ String.ofList (List.replicate (width - s.length) ' ')

/-- The direction's name for programs. -/
def Direction.label : Direction → String
  | noMove => "NoMove"
  | moveUp => "MoveUp"
  | moveDown => "MoveDown"
  | across => "Across"

namespace Delta

/-- The delta for programs. -/
def data (d : Delta) : Data :=
  .record [("text", .text d.text), ("direction", .text d.direction.label),
    ("levels", .number d.levels), ("removed", .texts d.removed), ("added", .texts d.added)]

/-- The delta on one line for people. -/
def line (d : Delta) : String :=
  padRight 10 d.direction.name ++ " levels=" ++ toString d.levels ++ " text=" ++ quoted d.text ++
    " relative=" ++ d.relativeText

/-- The delta in a format. -/
def report (format : Format) (d : Delta) : String :=
  match format with
  | .plain => d.line
  | _ => d.data.render format

end Delta

end ModuleMove
