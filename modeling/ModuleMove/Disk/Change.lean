import ModuleMove.Disk.Basic

/-!
# CHANGES OF A DISK — writing, renaming and making directories

Every change either is made or leaves the disk as it is and tells the trouble.  A file that is
written keeps its place among the entries of its directory.
-/

namespace ModuleMove.Disk

/-- The disk with something else at a place. -/
def alter (d : Disk) (place : List String) (f : Option Node → Option Node) : Disk :=
  { d with top := (Node.alterAt f place (some d.top)).getD (.directory []) }

/-- The disk, on which something more has been done. -/
def remember (d : Disk) (deed : Deed) : Disk := { d with deeds := deed :: d.deeds }

/-- The steps of a path without those at its end that come from slashes. -/
def bareSteps (p : Path) : List String := ((stepsOf p).reverse.dropWhile (· == "")).reverse

/-- Whether a path ends with a slash behind a name, so that only a directory can be meant. -/
def meansDirectory (p : Path) : Bool := (stepsOf p).length != (bareSteps p).length

/-- The place that a path names, whether something is there or not: the directory that it is in,
    and the name in it.  A path that ends with `.` or `..` has no name at its end. -/
def nameAt (d : Disk) (p : Path) : Except FileTrouble (List String × Option String) :=
  if p.text.isEmpty then .error .missing
  else
    let steps := bareSteps p
    match d.followFrom p steps.dropLast with
    | .error e => .error e
    | .ok (_, .file _) => .error .notDirectory
    | .ok (place, .directory _) =>
      .ok (place, steps.getLast?.bind fun s => if s == "." || s == ".." then none else some s)

/-- What is at a place. -/
def at? (d : Disk) (place : List String) : Option Node := d.top.find? place

/-! ## §1. Files. -/

/-- Puts a new text into a file, which need not be there yet. -/
def write (d : Disk) (p : Path) (text : String) : Except FileTrouble Disk :=
  match d.nameAt p with
  | .error e => .error e
  | .ok (_, none) => .error .isDirectory
  | .ok (place, some name) =>
    match d.at? (place ++ [name]) with
    | some (.directory _) => .error .isDirectory
    | _ =>
      if meansDirectory p then .error .notDirectory
      else
        .ok ((d.alter (place ++ [name]) fun _ => some (.file (.text text))).remember
          (.wrote p text))

/-! ## §2. Directories. -/

/-- Makes a directory. -/
def makeDirectory (d : Disk) (p : Path) : Except FileTrouble Disk :=
  match d.nameAt p with
  | .error e => .error e
  | .ok (_, none) => .error .exists
  | .ok (place, some name) =>
    match d.at? (place ++ [name]) with
    | some _ => .error .exists
    | none =>
      .ok ((d.alter (place ++ [name]) fun _ => some (.directory [])).remember (.made p))

/-- Makes a directory unless it is there already. -/
def haveDirectory (d : Disk) (p : Path) : Except FileTrouble Disk :=
  match d.makeDirectory p with
  | .ok d => .ok d
  | .error e => if d.hasDirectory p then .ok d else .error e

/-- Makes a directory and, first, those above it that are missing; there are at most `fuel` of
    them. -/
def haveDirectories : Nat → Disk → Path → Except FileTrouble Disk
  | 0, d, p => d.haveDirectory p
  | fuel + 1, d, p =>
    if p.text.isEmpty then .ok d
    else
      match d.makeDirectory p with
      | .ok d => .ok d
      | .error .missing =>
        match p.parent? with
        | none => .error (.other "failed to create whole tree")
        | some q => do (← haveDirectories fuel d q).haveDirectory p
      | .error e => if d.hasDirectory p then .ok d else .error e

/-- Makes a directory and all those above it that are missing. -/
def makeDirectories (d : Disk) (p : Path) : Except FileTrouble Disk :=
  haveDirectories (stepsOf p).length d p

/-! ## §3. Renaming. -/

/-- Why something cannot take the place of what is there. -/
def replaceTrouble (n : Node) : Option Node → Option FileTrouble
  | none => none
  | some (.file _) => if n.isDirectory then some .notDirectory else none
  | some (.directory es) =>
    if !n.isDirectory then some .isDirectory
    else if es.isEmpty then none
    else some .notEmpty

/-- Gives a file or directory another place. -/
def rename (d : Disk) (old new : Path) : Except FileTrouble Disk := do
  let (oldPlace, oldName) ← d.nameAt old
  let (newPlace, newName) ← d.nameAt new
  match oldName, newName with
  | some a, some b =>
    let source := oldPlace ++ [a]
    let goal := newPlace ++ [b]
    match d.at? source with
    | none => .error .missing
    | some n =>
      if !n.isDirectory && (meansDirectory old || meansDirectory new) then .error .notDirectory
      else if source == goal then .ok d
      else if source.isPrefixOf goal then .error .invalid
      else if goal.isPrefixOf source then .error .notEmpty
      else
        match replaceTrouble n (d.at? goal) with
        | some e => .error e
        | none =>
          .ok (((d.alter source fun _ => none).alter goal fun _ => some n).remember
            (.renamed old new))
  | _, _ => .error (.other "Device or resource busy (os error 16)")

end ModuleMove.Disk
