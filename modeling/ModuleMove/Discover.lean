import ModuleMove.Ignore.Layer
import ModuleMove.Project.Basic
import ModuleMove.Source.Language

/-!
# DISCOVERY — the source files of a project

The tree under the root is walked from the top, and a directory that is passed over is not
entered.  The project's own patterns decide first: what it excludes is passed over whatever the
ignore files say, and if it includes anything, all files that no pattern is about are passed over.
What the patterns say nothing about is left to the ignore files.
-/

namespace ModuleMove

open Ignore

/-- What was found in a project. -/
structure Discovery where
  /-- The source files with their languages, in the order of their paths. -/
  files : List (Path × Language)
  /-- What could not be looked at, and why. -/
  skipped : List (Path × Failure)

namespace Discovery

/-! ## §1. The project's own patterns. -/

/-- The directories that never hold sources of a project. -/
def neverSources : List String := ["node_modules/", "dist/", "out-tsc/", "coverage/", ".git/"]

/-- The patterns of a project, as lines of an ignore file with the opposite meaning. -/
def ownLines (c : Config) : List String :=
  (neverSources ++ c.excludes).map ("!" ++ ·) ++ c.includes

/-- The rules of a project, or the first of its patterns that is none. -/
def ownRules (c : Config) : Except BadGlob (List Rule) := do
  let rules ← (ownLines c).mapM (ruleOf false)
  pure (rules.filterMap id)

/-- What a rule of the project says when it matches: its verdict has the opposite meaning. -/
def opposite : Verdict → Verdict
  | .skip => .keep
  | .keep => .skip

/-- What the project's own rules say about a path. -/
def ownVerdict? (rules : List Rule) (path : String) (isDirectory : Bool) : Option Verdict :=
  match verdict? rules path isDirectory with
  | some v => some (opposite v)
  | none =>
    if !isDirectory && rules.any (fun r => r.verdict == .skip) then some .skip else none

/-! ## §2. The walk. -/

/-- What stays the same on a walk. -/
structure Walk where
  /-- The disk. -/
  disk : Disk
  /-- The names on the way to the root of the project. -/
  root : List String
  /-- The project's own rules. -/
  own : List Rule

/-- Whether a file or directory is passed over, where the rules of the directories around it are
    `layers`. -/
def Walk.passesOver (w : Walk) (layers : List Layer) (place : List String)
    (isDirectory : Bool) : Bool :=
  let own := ownVerdict? w.own (joinText '/' (place.drop w.root.length)) isDirectory
  (own.orElse fun _ => layersVerdict? layers place isDirectory) == some .skip

mutual

/-- The files of a node at a place. -/
def filesOf (w : Walk) (layers : List Layer) (place : List String) (path : Path) :
    Node → List Path
  | .file _ => [path]
  | .directory es => filesIn w ((layerOf w.disk place es).1 :: layers) place path es

/-- The files of those entries of a directory that are not passed over. -/
def filesIn (w : Walk) (layers : List Layer) (place : List String) (path : Path) :
    List (String × Node) → List Path
  | [] => []
  | (name, n) :: es =>
    let here := place ++ [name]
    (if w.passesOver layers here n.isDirectory then []
      else filesOf w layers here (path.join ⟨name⟩) n) ++ filesIn w layers place path es

end

/-- The layers of the directories above a place, the nearest first, and the lines in them that
    are no rules, from the outermost directory on. -/
def layersAbove (d : Disk) (place : List String) : List Layer × List BadLine :=
  (List.range place.length).foldl
    (fun (layers, bad) i =>
      match d.top.find? (place.take i) with
      | some n =>
        let (l, b) := layerOf d (place.take i) n.entries
        (l :: layers, bad ++ b)
      | none => (layers, bad))
    ([], [])

/-- The failures that lines of ignore files above the root lead to. -/
def aboveFailures (root : Path) : List BadLine → List (Path × Failure)
  | [] => []
  | bad =>
    let path :=
      match bad with
      | [b] => b.file
      | _ => root
    let reason := String.intercalate "\n" (bad.map BadLine.message)
    [(path, .file path (.other reason))]

/-- Whether a file is a source file of the project, and in which language. -/
def sourceOf? (c : Config) (path : Path) : Option (Path × Language) := do
  let ext ← path.extension?
  let language ← Language.ofExtension? ext
  if c.extensions.contains ext then some (path, language) else none

end Discovery

open Discovery in
/-- The source files under the root of a project. -/
def discover (d : Disk) (p : Project) : Except Failure Discovery :=
  match d.locate p.root with
  | .ok (place, .directory es) =>
    match ownRules p.config with
    | .error b => .error (.file p.root (.other b.message))
    | .ok own =>
      let (above, bad) := layersAbove d place
      let w : Discovery.Walk := ⟨d, place, own⟩
      let layers := (layerOf d place es).1 :: above
      let files := (filesIn w layers place p.root es).filterMap (sourceOf? p.config)
      .ok ⟨files.mergeSort fun a b => a.1.le b.1, aboveFailures p.root bad⟩
  | _ => .error (.file p.root (.other "project root is not a directory"))

end ModuleMove
