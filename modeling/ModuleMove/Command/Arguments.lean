import ModuleMove.Report.Delta

/-!
# ARGUMENTS — what a command line asks for

A command line names a command, with its paths and options.  Options that all commands have may
stand before or behind the name of the command; one that stands behind it wins.  What is asked for
is decided from left to right: the first argument that cannot be understood, or that asks for
help, decides.
-/

namespace ModuleMove.Command

/-- A command with its paths. -/
inductive Errand where
  /-- Moves a unit. -/
  | move (old new : Path) (dryRun noMove : Bool)
  /-- Lists the references to a unit. -/
  | deps (path : Path)
  /-- Tells how the directory of a unit would change. -/
  | delta (old new : Path)
  deriving DecidableEq, Repr, Inhabited

/-- The options that all commands have, as far as they are given. -/
structure Options where
  /-- The root of the project. -/
  root : Option Path := none
  /-- How answers are written. -/
  format : Option Format := none
  /-- The configuration file. -/
  config : Option Path := none
  /-- Further patterns of the files to look at. -/
  includes : List String := []
  /-- Further patterns of the files not to look at. -/
  excludes : List String := []
  /-- The number of files that may be worked on at a time. -/
  jobs : Option Nat := none
  /-- How often more messages are asked for. -/
  verbose : Nat := 0
  /-- Whether messages are written for programs. -/
  jsonLogs : Bool := false
  deriving DecidableEq, Repr, Inhabited

/-- What a command line asks for. -/
structure Request where
  /-- The command, with its paths. -/
  errand : Errand
  /-- The options. -/
  options : Options
  deriving DecidableEq, Repr, Inhabited

/-- Why no command is run. -/
inductive Refused where
  /-- The command line cannot be understood. -/
  | usage
  /-- It asks for help. -/
  | help
  /-- It asks for the version. -/
  | version
  deriving DecidableEq, Repr, Inhabited

/-! ## §1. Values. -/

/-- The number that digits make up, with a plus sign or without, if it fits into 64 bits. -/
def count? (s : String) : Option Nat :=
  let digits := ((afterStart? "+" s).getD s).toList
  if digits.isEmpty || !digits.all Char.isDigit then none
  else
    let n := digits.foldl (fun n c => 10 * n + (c.toNat - 48)) 0
    if n < UInt64.size then some n else none

/-- A path; an empty text is none. -/
def path? (s : String) : Option Path := if s.isEmpty then none else some ⟨s⟩

/-- Whether an argument is an option rather than a value. -/
def isOption (s : String) : Bool := (afterStart? "-" s).isSome && s != "-"

/-! ## §2. Options. -/

/-- Sets something that may be given once. -/
def once {α : Type} (old : Option α) (new : Option α) : Except Refused (Option α) :=
  match old, new with
  | none, some a => .ok (some a)
  | _, _ => .error .usage

/-- Sets an option that takes a value; nothing if no option has that name. -/
def Options.set? (o : Options) (name value : String) : Option (Except Refused Options) :=
  match name with
  | "root" => some do pure { o with root := ← once o.root (path? value) }
  | "format" => some do pure { o with format := ← once o.format (Format.ofName? value) }
  | "config" => some do pure { o with config := ← once o.config (path? value) }
  | "include" => some (.ok { o with includes := o.includes ++ [value] })
  | "exclude" => some (.ok { o with excludes := o.excludes ++ [value] })
  | "jobs" => some do pure { o with jobs := ← once o.jobs (count? value) }
  | _ => none

/-- Sets an option that takes no value; nothing if no option has that name. -/
def Options.flag? (o : Options) (name : String) : Option (Except Refused Options) :=
  match name with
  | "verbose" => some (.ok { o with verbose := o.verbose + 1 })
  | "json-logs" => some (if o.jsonLogs then .error .usage else .ok { o with jsonLogs := true })
  | _ => none

/-- Those options of `inner` that are given, and of `outer` otherwise. -/
def Options.over (inner outer : Options) : Options where
  root := inner.root.orElse fun _ => outer.root
  format := inner.format.orElse fun _ => outer.format
  config := inner.config.orElse fun _ => outer.config
  includes := if inner.includes.isEmpty then outer.includes else inner.includes
  excludes := if inner.excludes.isEmpty then outer.excludes else inner.excludes
  jobs := inner.jobs.orElse fun _ => outer.jobs
  verbose := if inner.verbose == 0 then outer.verbose else inner.verbose
  jsonLogs := inner.jsonLogs || outer.jsonLogs

/-! ## §3. Arguments of a command. -/

/-- What has been read of the arguments of a command. -/
structure Given where
  /-- The options that all commands have. -/
  options : Options := {}
  /-- The values that stand for themselves. -/
  values : List String := []
  /-- Whether edits are planned only. -/
  dryRun : Bool := false
  /-- Whether nothing is renamed. -/
  noMove : Bool := false
  deriving Inhabited

/-- The name and, behind an equals sign, the value of an option with two dashes. -/
def longOption? (s : String) : Option (String × Option String) := do
  let rest ← afterStart? "--" s
  match cutText '=' rest with
  | name :: v :: vs => some (name, some (joinText '=' (v :: vs)))
  | _ => some (rest, none)

/-- Takes an option of a command that takes no value. -/
def takeFlag (moving : Bool) (g : Given) (name : String) : Except Refused Given :=
  if name == "help" then .error .help
  else if moving && name == "dry-run" then
    if g.dryRun then .error .usage else .ok { g with dryRun := true }
  else if moving && name == "no-move" then
    if g.noMove then .error .usage else .ok { g with noMove := true }
  else
    match g.options.flag? name with
    | some r => do pure { g with options := ← r }
    | none => .error .usage

/-- Takes options of one letter that stand behind one dash. -/
def takeLetters (top : Bool) (g : Given) : List Char → Except Refused Given
  | [] => .ok g
  | 'v' :: r => takeLetters top { g with options := { g.options with
      verbose := g.options.verbose + 1 } } r
  | 'h' :: _ => .error .help
  | 'V' :: _ => if top then .error .version else .error .usage
  | _ => .error .usage

/-- Takes an option, with the arguments that follow it; gives those that are left. -/
def takeOption (top moving : Bool) (g : Given) (s : String) (rest : List String) :
    Except Refused (Given × List String) :=
  match longOption? s with
  | none => do pure (← takeLetters top g s.toList.tail, rest)
  | some (name, some v) =>
    match g.options.set? name v with
    | some r => do pure ({ g with options := ← r }, rest)
    | none => .error .usage
  | some (name, none) =>
    if top && name == "version" then .error .version
    else if (g.options.set? name "").isSome then
      match rest with
      | v :: rest =>
        if isOption v then .error .usage
        else
          match g.options.set? name v with
          | some r => do pure ({ g with options := ← r }, rest)
          | none => .error .usage
      | [] => .error .usage
    else do pure (← takeFlag moving g name, rest)

/-- Takes the arguments of a command with at most `most` values, in at most `fuel` steps. -/
def takeAll (moving : Bool) (most : Nat) : Nat → Given → List String → Except Refused Given
  | 0, g, _ => .ok g
  | _, g, [] => .ok g
  | fuel + 1, g, s :: rest =>
    if s == "--" then
      if g.values.length + rest.length ≤ most && rest.all (!·.isEmpty) then
        .ok { g with values := g.values ++ rest }
      else .error .usage
    else if isOption s then
      match takeOption false moving g s rest with
      | .ok (g, rest) => takeAll moving most fuel g rest
      | .error e => .error e
    else if g.values.length < most && !s.isEmpty then
      takeAll moving most fuel { g with values := g.values ++ [s] } rest
    else .error .usage

/-- The request of a command with its arguments. -/
def requestOf (name : String) (outer : Options) (args : List String) :
    Except Refused Request :=
  match name with
  | "move" => do
    let g ← takeAll true 2 args.length {} args
    match g.values with
    | [old, new] => pure ⟨.move ⟨old⟩ ⟨new⟩ g.dryRun g.noMove, g.options.over outer⟩
    | _ => .error .usage
  | "deps" => do
    let g ← takeAll false 1 args.length {} args
    match g.values with
    | [path] => pure ⟨.deps ⟨path⟩, g.options.over outer⟩
    | _ => .error .usage
  | "delta" => do
    let g ← takeAll false 2 args.length {} args
    match g.values with
    | [old, new] => pure ⟨.delta ⟨old⟩ ⟨new⟩, g.options.over outer⟩
    | _ => .error .usage
  | "help" =>
    match args with
    | [] => .error .help
    | [name] =>
      if ["move", "deps", "delta", "help"].contains name then .error .help else .error .usage
    | _ => .error .usage
  | _ => .error .usage

/-! ## §4. Command lines. -/

/-- Reads options up to the name of the command, in at most `fuel` steps. -/
def readArguments : Nat → Given → List String → Except Refused Request
  | _, _, [] => .error .usage
  | 0, _, _ => .error .usage
  | fuel + 1, g, s :: rest =>
    if s == "--" then .error .usage
    else if isOption s then
      match takeOption true false g s rest with
      | .ok (g, rest) => readArguments fuel g rest
      | .error e => .error e
    else requestOf s g.options rest

/-- The request of a command line without the name of the program. -/
def request (args : List String) : Except Refused Request := readArguments args.length {} args

end ModuleMove.Command
