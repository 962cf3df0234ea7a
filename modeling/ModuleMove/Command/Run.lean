import ModuleMove.Command.Arguments
import ModuleMove.Config.Find
import ModuleMove.Report.Listing

/-!
# COMMANDS — running what a command line asks for

A command is run on a disk and answers a text and the disk as it is afterwards.  Paths on the
command line are read from the working directory; the configuration is that of the project's root,
with the options of the command line on top.
-/

namespace ModuleMove.Command

/-- Why a command failed: what could not be done, followed by causes. -/
structure Abort where
  /-- The reasons, outermost first. -/
  chain : List String
  deriving DecidableEq, Repr, Inhabited

/-- A failure with its cause. -/
def chainOf (f : Failure) : List String :=
  match f with
  | .file _ e => [f.message, e.message]
  | _ => [f.message]

/-- Why files could not be renamed, with the cause. -/
def renameChain : RenameTrouble → List String
  | .destinationExists p => ["destination already exists: " ++ p.text]
  | .directory p e => ["cannot create " ++ p.text, e.message]
  | .rename old new e => ["cannot move " ++ old.text ++ " to " ++ new.text, e.message]

/-- What a command answers. -/
structure Answer where
  /-- The text. -/
  text : String
  /-- Whether a file could not be edited. -/
  failed : Bool
  deriving DecidableEq, Repr, Inhabited

/-! ## §1. The project. -/

/-- A path on the command line as an absolute one. -/
def absolute (d : Disk) (p : Path) : Path :=
  if p.isAbsolute then p.normalize else (Path.join ⟨"/" ++ joinText '/' d.here⟩ p).normalize

/-- The configuration with the options of a command line on top. -/
def withOptions (c : Config) (o : Options) : Config :=
  { c with
    includes := c.includes ++ o.includes
    excludes := c.excludes ++ o.excludes
    jobs := o.jobs.orElse fun _ => c.jobs }

/-- The project that options name. -/
def projectOf (d : Disk) (o : Options) : Except Abort Project :=
  let named := o.root.getD ⟨"."⟩
  match d.realPath named with
  | .error e => .error ⟨["project root not found: " ++ named.text, e.message]⟩
  | .ok root =>
    match Config.load d root o.config with
    | .error e => .error ⟨e.chain⟩
    | .ok c => .ok (Project.ofRoot root (withOptions c o))

/-! ## §2. The commands. -/

/-- Moves a unit. -/
def runMove (d : Disk) (p : Project) (old new : Path) (dryRun noMove : Bool) (format : Format) :
    Except Abort Answer × Disk :=
  let p := { p with config := { p.config with dryRun := p.config.dryRun || dryRun } }
  let old := absolute d old
  let new := absolute d new
  match carryOut d p old new with
  | .error f => (.error ⟨("cannot move " ++ old.text ++ " to " ++ new.text) :: chainOf f⟩, d)
  | .ok (r, d) =>
    let failed := !r.failed.isEmpty
    if r.dryRun || noMove then (.ok ⟨r.report format [] p.root, failed⟩, d)
    else
      match renameAll d r.plan.moves with
      | (.error e, d) => (.error ⟨renameChain e⟩, d)
      | (.ok (), d) => (.ok ⟨r.report format r.plan.moves p.root, failed⟩, d)

/-- Lists the references to a unit. -/
def runDeps (d : Disk) (p : Project) (path : Path) (format : Format) : Except Abort String :=
  let path := absolute d path
  match listDependents d p path with
  | .error f => .error ⟨("cannot list dependents of " ++ path.text) :: chainOf f⟩
  | .ok l => .ok (l.report format p.root)

/-- Tells how the directory of a unit would change. -/
def runDelta (d : Disk) (p : Project) (old new : Path) (format : Format) :
    Except Abort String :=
  match Delta.compute (absolute d old) (absolute d new) p.root with
  | .error f => .error ⟨chainOf f⟩
  | .ok delta => .ok (delta.report format)

/-- Runs a command in a project. -/
def run (d : Disk) (p : Project) (format : Format) : Errand → Except Abort Answer × Disk
  | .move old new dryRun noMove => runMove d p old new dryRun noMove format
  | .deps path => ((runDeps d p path format).map fun s => ⟨s, false⟩, d)
  | .delta old new => ((runDelta d p old new format).map fun s => ⟨s, false⟩, d)

/-! ## §3. The program. -/

/-- What is left of a run of the program. -/
structure Result where
  /-- What the program tells its caller: 0 if all went well, 2 if it was called wrongly. -/
  exit : Nat
  /-- What it wrote. -/
  output : String
  /-- What it complained about. -/
  complaint : String
  deriving DecidableEq, Repr, Inhabited

/-- A text in a paragraph of its own: the first line behind a mark, the others below it. -/
def paragraph (mark : String) (s : String) : String :=
  let indent := String.ofList (List.replicate mark.length ' ')
  mark ++ String.intercalate ("\n" ++ indent) (cutText '\n' s)

/-- Causes, numbered if there are several. -/
def causes : List String → String
  | [] => ""
  | [s] => "\n\nCaused by:\n" ++ paragraph "    " s
  | ss =>
    "\n\nCaused by:" ++ String.join (ss.zipIdx.map fun (s, i) =>
      "\n" ++ paragraph ("    " ++ toString i ++ ": ") s)

/-- Why a command failed, in words. -/
def Abort.words (a : Abort) : String :=
  "Error: " ++ a.chain.head?.getD "" ++ causes a.chain.tail ++ "\n"

/-- The name and the version of the program. -/
def version : String := "promote 0.1.0\n"

/-- How the program is called. -/
def usage : String :=
  "Usage: promote [OPTIONS] <COMMAND>\n\n" ++
  "Commands:\n" ++
  "  move <OLD> <NEW>   Move a unit and update the references to it\n" ++
  "  deps <PATH>        List the files that reference a unit\n" ++
  "  delta <OLD> <NEW>  Show how a unit's parent directory would change\n"

/-- Runs the program with the arguments of a command line. -/
def program (d : Disk) (args : List String) : Result × Disk :=
  match request args with
  | .error .usage => (⟨2, "", usage⟩, d)
  | .error .help => (⟨0, usage, ""⟩, d)
  | .error .version => (⟨0, version, ""⟩, d)
  | .ok r =>
    match projectOf d r.options with
    | .error a => (⟨1, "", a.words⟩, d)
    | .ok p =>
      match run d p (r.options.format.getD .plain) r.errand with
      | (.error a, d) => (⟨1, "", a.words⟩, d)
      | (.ok answer, d) => (⟨if answer.failed then 1 else 0, answer.text ++ "\n", ""⟩, d)

end ModuleMove.Command
