import ModuleMove.Glob.Reader
import ModuleMove.Text.Space

/-!
# RULES — the lines of an ignore file

A rule is a glob that says which files and directories are passed over, or, with an exclamation
mark, which are not.  Of several rules that match, the last decides.  A glob without a slash inside
matches at any depth, one with a slash at the end matches directories only.
-/

namespace ModuleMove.Ignore

/-- What rules say about a file or directory. -/
inductive Verdict where
  /-- It is passed over. -/
  | skip
  /-- It is looked at. -/
  | keep
  deriving DecidableEq, Repr

/-- A rule. -/
structure Rule where
  /-- The pattern of the paths that it is about. -/
  pattern : List Glob.Part
  /-- What it says about them. -/
  verdict : Verdict
  /-- Whether it is about directories only. -/
  directoriesOnly : Bool

/-- A line that is no rule. -/
structure BadGlob where
  /-- The line. -/
  glob : String
  /-- What is wrong with it. -/
  trouble : Glob.Trouble

/-- The wording of what is wrong with a line. -/
def BadGlob.message (b : BadGlob) : String :=
  "error parsing glob '" ++ b.glob ++ "': " ++ b.trouble.message

/-! ## §1. Reading. -/

/-- A line as it counts: without blanks at its end, unless they are kept by a backslash. -/
def trimmed (line : String) : String :=
  if (beforeEnd? "\\ " line).isSome then line else withoutEndSpace line

/-- The glob of a line without its marks; whether it is a negation; whether it is tied to its
    directory by a slash in front. -/
def marks (line : String) : String × Bool × Bool :=
  if (afterStart? "\\!" line).isSome || (afterStart? "\\#" line).isSome then
    (String.ofList line.toList.tail, false, false)
  else
    let (line, negated) :=
      match afterStart? "!" line with
      | some rest => (rest, true)
      | none => (line, false)
    match afterStart? "/" line with
    | some rest => (rest, negated, true)
    | none => (line, negated, false)

/-- The glob without a slash at its end, and whether it had one. -/
def withoutSlash (glob : String) : String × Bool :=
  match beforeEnd? "/" glob with
  | some rest => ((beforeEnd? "\\" rest).getD rest, true)
  | none => (glob, false)

/-- The glob that is matched with the whole path: at any depth if it is not tied to its directory,
    and only inside of directories if it ends with two stars. -/
def whole (glob : String) (tied : Bool) : String :=
  let glob :=
    if tied || glob.toList.contains '/' || glob == "**" then glob else "**/" ++ glob
  if (beforeEnd? "/**" glob).isSome then glob ++ "/*" else glob

/-- The rule of a line, if it holds one. -/
def ruleOf (lenient : Bool) (line : String) : Except BadGlob (Option Rule) :=
  let text := trimmed line
  if (afterStart? "#" line).isSome || text.isEmpty then .ok none
  else
    let (glob, negated, tied) := marks text
    let (glob, directoriesOnly) := withoutSlash glob
    match Glob.pattern lenient (whole glob tied) with
    | .ok ps => .ok (some ⟨ps, if negated then .keep else .skip, directoriesOnly⟩)
    | .error e => .error ⟨text, e⟩

/-- The rules of lines, and the lines that are none with their numbers; the first line is 1. -/
def rulesOf (lenient : Bool) (lines : List String) : List Rule × List (Nat × BadGlob) :=
  let read := lines.zipIdx.map fun (l, i) => (i + 1, ruleOf lenient l)
  (read.filterMap fun
    | (_, .ok r) => r
    | (_, .error _) => none,
  read.filterMap fun
    | (n, .error e) => some (n, e)
    | (_, .ok _) => none)

/-! ## §2. Asking. -/

/-- Whether a rule is about a path, seen from the directory of the rule. -/
def Rule.isAbout (r : Rule) (path : String) (isDirectory : Bool) : Bool :=
  (isDirectory || !r.directoriesOnly) && Glob.matchesText r.pattern path

/-- What rules say about a path. -/
def verdict? (rs : List Rule) (path : String) (isDirectory : Bool) : Option Verdict :=
  (rs.reverse.find? fun r => r.isAbout path isDirectory).map (·.verdict)

end ModuleMove.Ignore
