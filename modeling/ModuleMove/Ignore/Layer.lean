import ModuleMove.Disk.Basic
import ModuleMove.Ignore.Rule

/-!
# LAYERS — the ignore rules of a directory

Each directory may bring rules of three kinds: those of its `.ignore` file, those of its
`.gitignore` file, and those that its repository excludes.  A rule of a directory further down wins
over one further up, and a kind named first over one named later.  Rules of the last two kinds
only count inside a repository, and not beyond the directory in which the repository begins.
-/

namespace ModuleMove.Ignore

/-- The rules of a directory. -/
structure Layer where
  /-- The names on the way to the directory. -/
  place : List String
  /-- The rules of its `.ignore` file. -/
  plain : List Rule
  /-- The rules of its `.gitignore` file. -/
  git : List Rule
  /-- The rules that its repository excludes. -/
  excluded : List Rule
  /-- Whether a repository begins here. -/
  repository : Bool

/-! ## §1. Reading. -/

/-- The lines of a content, up to the first that is no text. -/
def contentLines : Content → List String
  | .text s => linesOf s
  | .bytes bs =>
    let pieces := cutBytes bs
    linesOf (String.join ((texts pieces).map (· ++ "\n")))
where
  /-- The runs of bytes between line feeds. -/
  cutBytes (bs : List UInt8) : List (List UInt8) :=
    bs.foldr (fun b ps =>
      if b == 10 then [] :: ps
      else
        match ps with
        | p :: ps => (b :: p) :: ps
        | [] => [[b]]) [[]]
  /-- The texts of runs of bytes, up to the first that is none. -/
  texts : List (List UInt8) → List String
    | [] => []
    | p :: ps =>
      match String.fromUTF8? ⟨p.toArray⟩ with
      | some s => s :: texts ps
      | none => []

/-- The lines of a text without the mark that may stand at its beginning. -/
def unmarked : List String → List String
  | [] => []
  | l :: ls => String.ofList (l.toList.dropWhile (· == '\uFEFF')) :: ls

/-- The rules in a file. -/
def rulesIn : Option Node → List Rule × List (Nat × BadGlob)
  | some (.file c) => rulesOf true (unmarked (contentLines c))
  | _ => ([], [])

/-- The first line of a file. -/
def firstLine? (d : Disk) (p : Path) : Option String :=
  match d.node? p with
  | some (.file c) => (contentLines c).head?
  | _ => none

/-- The directory with what all work trees of a repository share. -/
def sharedPlace? (d : Disk) (dir : Path) (git : Option Node) : Option Path :=
  match git with
  | some (.file c) => do
    let line ← (contentLines c).head?
    let own : Path := ⟨← afterStart? "gitdir: " line⟩
    let shared ← firstLine? d (own.join ⟨"commondir"⟩)
    if (afterStart? "." shared).isSome then some (own.join ⟨shared⟩) else some ⟨shared⟩
  | _ => some (dir.join ⟨".git"⟩)

/-- A line of an ignore file that is no rule. -/
structure BadLine where
  /-- The file. -/
  file : Path
  /-- The number of the line. -/
  line : Nat
  /-- What is wrong with it. -/
  bad : BadGlob

/-- The wording of what is wrong with a line. -/
def BadLine.message (b : BadLine) : String :=
  b.file.text ++ ": line " ++ toString b.line ++ ": " ++ b.bad.message

/-- The rules of a directory with the given entries, and the lines that are none. -/
def layerOf (d : Disk) (place : List String) (es : List (String × Node)) :
    Layer × List BadLine :=
  let dir : Path := ⟨"/" ++ joinText '/' place⟩
  let git := Node.child? ".git" es
  let shared := sharedPlace? d dir git
  let (plain, badPlain) := rulesIn (Node.child? ".ignore" es)
  let (own, badOwn) := rulesIn (Node.child? ".gitignore" es)
  let excludeFile := (shared.getD dir).join ⟨"info/exclude"⟩
  let (excluded, badExcluded) :=
    if shared.isSome then rulesIn (d.node? excludeFile) else ([], [])
  let badLines (file : Path) (bad : List (Nat × BadGlob)) : List BadLine :=
    bad.map fun (n, b) => ⟨file, n, b⟩
  (⟨place, plain, own, excluded, git.isSome⟩,
    badLines (dir.join ⟨".ignore"⟩) badPlain ++ badLines (dir.join ⟨".gitignore"⟩) badOwn ++
      badLines excludeFile badExcluded)

/-! ## §2. Asking. -/

/-- What one kind of rules in layers, the nearest first, says about a place. -/
def firstVerdict? (rules : Layer → List Rule) (place : List String) (isDirectory : Bool)
    (ls : List Layer) : Option Verdict :=
  ls.findSome? fun l =>
    verdict? (rules l) (joinText '/' (place.drop l.place.length)) isDirectory

/-- The layers up to the one in which the nearest repository begins; none outside of all
    repositories. -/
def repositoryLayers (ls : List Layer) : List Layer :=
  if ls.any (·.repository) then
    ls.takeWhile (!·.repository) ++ (ls.find? (·.repository)).toList
  else []

/-- What layers, the nearest first, say about a place. -/
def layersVerdict? (ls : List Layer) (place : List String) (isDirectory : Bool) :
    Option Verdict :=
  let inRepository := repositoryLayers ls
  (firstVerdict? Layer.plain place isDirectory ls).orElse fun _ =>
    (firstVerdict? Layer.git place isDirectory inRepository).orElse fun _ =>
      firstVerdict? Layer.excluded place isDirectory inRepository

end ModuleMove.Ignore
