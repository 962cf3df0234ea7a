import ModuleMove.Command.Run
import ModuleMove.Disk.Change

/-!
# THE PROGRAM — from a command line to the files of a machine

The part of the machine's tree that a command can ask about is read into a disk, the command is run
on that disk, and what it did there is done to the files.
-/

namespace ModuleMove.Main

open Command

/-! ## §1. Reading. -/

/-- The names on the way to an absolute path. -/
def placeOf (p : Path) : List String := Path.textsOf (p.components.drop 1)

/-- The content that bytes make up. -/
def contentOf (bytes : ByteArray) : Content :=
  match String.fromUTF8? bytes with
  | some s => .text s
  | none => .bytes bytes.data.toList

/-- Reads a file, or a directory with everything in it; links are left out. -/
partial def readNode (e : IO.FS.DirEntry) : IO (Option Node) := do
  match (← e.path.symlinkMetadata).type with
  | .dir =>
    let inner ← (← e.path.readDir).toList.mapM fun x => do
      pure ((← readNode x).map fun n => (x.fileName, n))
    pure (some (.directory (inner.filterMap id)))
  | .file => pure (some (.file (contentOf (← IO.FS.readBinFile e.path))))
  | _ => pure none

/-- Reads what is at a path into a disk; nothing if there is nothing. -/
def readInto (d : Disk) (p : Path) : IO Disk := do
  try
    match ← readNode ⟨p.parent.text, p.fileName?.getD ""⟩ with
    | some n =>
      let d := (d.makeDirectories p.parent).toOption.getD d
      pure (d.alter (placeOf p) fun _ => some n)
    | none => pure d
  catch _ => pure d

/-- The files that decide in a directory which others are passed over. -/
def ruleFiles : List Path := [⟨".ignore"⟩, ⟨".gitignore"⟩, ⟨".git/HEAD"⟩, ⟨".git/info/exclude"⟩]

/-- A directory and those above it, at most `fuel` of them. -/
def directoriesFrom : Nat → Path → List Path
  | 0, _ => []
  | fuel + 1, p =>
    match p.parent? with
    | some q => p :: directoriesFrom fuel q
    | none => [p]

/-- The paths that a command names. -/
def pathsOf : Errand → List Path
  | .move old new _ _ => [old, new]
  | .deps path => [path]
  | .delta _ _ => []

/-- A path, and those at which a file may be meant that has a source extension. -/
def candidates (p : Path) : List Path :=
  p :: Config.default.extensions.map fun ext => ⟨p.text ++ "." ++ ext⟩

/-- The paths that a request may ask about, from the outermost on. -/
def asked (d : Disk) (r : Request) : List Path :=
  let root := absolute d (r.options.root.getD ⟨"."⟩)
  let directories := directoriesFrom root.components.length root
  let above := directories.flatMap fun dir => ruleFiles.map dir.join
  let named := ((pathsOf r.errand).map (absolute d)).flatMap candidates
  let config := r.options.config.map (absolute d)
  above ++ named ++ config.toList ++ [root]

/-- The part of the tree that a request may ask about. -/
def readDisk (here : Path) (r : Request) : IO Disk := do
  let start : Disk := ⟨.directory [], placeOf here, []⟩
  let d ← (asked start r).foldlM readInto start
  pure { (d.makeDirectories here).toOption.getD d with deeds := [] }

/-! ## §2. Doing. -/

/-- Does to the files what was done to a disk. -/
def repeatDeed : Deed → IO Unit
  | .wrote path text => do
    let draft := path.text ++ ".draft"
    IO.FS.writeFile draft text
    IO.FS.rename draft path.text
  | .made path => IO.FS.createDir path.text
  | .renamed old new => IO.FS.rename old.text new.text

/-- Runs the program. -/
def runProgram (args : List String) : IO UInt32 := do
  let here : Path := ⟨toString (← IO.currentDir)⟩
  let d ←
    match request args with
    | .ok r => readDisk here r
    | .error _ => pure default
  let (result, d) := program d args
  d.deeds.reverse.forM repeatDeed
  IO.print result.output
  IO.eprint result.complaint
  pure (UInt32.ofNat result.exit)

end ModuleMove.Main

/-- Runs the program with the arguments of the command line. -/
def main (args : List String) : IO UInt32 := ModuleMove.Main.runProgram args
