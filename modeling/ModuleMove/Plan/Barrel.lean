import ModuleMove.Plan.Specifiers

/-!
# BARREL EDITS — keeping the barrels of both directories up to date

The barrel of the directory that the unit leaves loses the lines that export the unit.  The barrel
of the directory that it enters gets one, unless it exports the unit already.
-/

namespace ModuleMove

/-- What there is to know about a barrel. -/
structure Barrel where
  /-- The file. -/
  path : Path
  /-- Its characters. -/
  content : List Char
  /-- Its exports from other files of the project. -/
  exports : List Reference
  /-- The end of its last export statement. -/
  lastExportEnd : Option Nat

/-- The largest of some numbers. -/
def largest? (ns : List Nat) : Option Nat :=
  match ns with
  | [] => none
  | n :: ns => some (ns.foldl max n)

namespace Preparation

/-! ## §1. Reading barrels. -/

/-- What there is to know about the barrel at a path, or why nothing can be known. -/
def barrelAt (x : Preparation) (path : Path) : Except Warning Barrel :=
  match x.index.file? path with
  | none => .error ⟨path, "barrel could not be scanned; left unchanged"⟩
  | some f =>
    match x.disk.readText path with
    | .error e => .error ⟨path, "barrel could not be read: " ++ e.message⟩
    | .ok content =>
      let ends := (f.exportStatements ++ f.exports.map (·.statement)).map (·.stop)
      .ok ⟨path, content.toList, f.exports.filter (·.isRelative), largest? ends⟩

/-! ## §2. Removing. -/

/-- The end of a statement's line: a line end right behind the statement belongs to it. -/
def lineEnd (content : List Char) (stop : Nat) : Nat :=
  match fromByte? content stop with
  | some ('\r' :: '\n' :: _) => stop + 2
  | some ('\n' :: _) => stop + 1
  | _ => stop

/-- The edit that removes an export of the unit from the barrel of the directory that it leaves. -/
def removal? (x : Preparation) (b : Barrel) (r : Reference) : Option Edit := do
  let _ ← x.unit.relocate (targetOf x.project x.unit.oldParent r)
  let line ← betweenBytes? b.content r.statement.start (lineEnd b.content r.statement.stop)
  some ⟨b.path, r.statement.start, .remove (String.ofList line)⟩

/-- The edits that remove the unit from the barrel at a path. -/
def removals (x : Preparation) (path : Path) : EditSet :=
  match x.barrelAt path with
  | .error w => ⟨[], [w]⟩
  | .ok b => ⟨b.exports.filterMap (x.removal? b), []⟩

/-! ## §3. Names that clash. -/

/-- The names that a file declares or passes on; of a file that it passes on as a whole, those
    that are declared there. -/
def namesOf (x : Preparation) (file : Path) : List String :=
  match x.index.file? file with
  | none => []
  | some f =>
    let dir := x.project.directoryOf file
    f.declared ++ f.exports.flatMap fun r =>
      if !r.isWildcard then r.exported
      else if !r.isRelative then []
      else
        match (probe x.disk x.project.extensions (targetOf x.project dir r)).bind x.index.file? with
        | some g => g.declared
        | none => []

/-- The file that stands for the unit. -/
def unitFile? (x : Preparation) : Option Path :=
  match x.unit.style with
  | .file => some x.unit.old
  | .directory => probe x.disk x.project.extensions x.unit.old

/-- The names that a barrel exports. -/
def barrelNames (x : Preparation) (b : Barrel) : List String :=
  let dir := x.project.directoryOf b.path
  b.exports.flatMap fun r =>
    if r.isWildcard then
      match probe x.disk x.project.extensions (targetOf x.project dir r) with
      | some file => x.namesOf file
      | none => []
    else r.exported

/-- The names of a list in order, each once. -/
def sortedNames (ns : List String) : List String :=
  (ns.mergeSort fun a b => !(b < a)).foldr
    (fun n seen => if seen.head? == some n then seen else n :: seen) []

/-- The names of the unit that a barrel exports already. -/
def clashes (x : Preparation) (b : Barrel) : List String :=
  match x.unitFile? with
  | none => []
  | some file =>
    let taken := x.barrelNames b
    sortedNames ((x.namesOf file).filter taken.contains)

/-! ## §4. Inserting. -/

/-- Whether a barrel of the directory that the unit enters exports it, under its new or its old
    path. -/
def exportsUnit (x : Preparation) (b : Barrel) : Bool :=
  b.exports.any fun r =>
    let target := targetOf x.project x.unit.newParent r
    sameModule target x.unit.newModule x.project.extensions || (x.unit.relocate target).isSome

/-- The quotation mark that a barrel uses last, or a single one. -/
def quoteOf (b : Barrel) : String :=
  let found := do
    let r ← b.exports.getLast?
    if r.span.start == 0 then none else betweenBytes? b.content (r.span.start - 1) r.span.start
  match found with
  | some ['"'] => "\""
  | _ => "'"

/-- The line that exports the unit from a barrel. -/
def exportLine (x : Preparation) (b : Barrel) : String :=
  let q := quoteOf b
  "export * from " ++ q ++ Specifier.relative x.unit.newParent x.unit.newModule ++ q ++ ";"

/-- The edit that puts a line into a barrel: behind its last export statement, or at the top. -/
def insertionOf (b : Barrel) (line : String) : Edit :=
  match b.lastExportEnd with
  | some stop => ⟨b.path, stop, .insert ("\n" ++ line)⟩
  | none => ⟨b.path, 0, .insert (line ++ "\n")⟩

/-- The edit that adds the unit to the barrel at a path. -/
def insertion (x : Preparation) (path : Path) : EditSet :=
  match x.barrelAt path with
  | .error w => ⟨[], [w]⟩
  | .ok b =>
    if x.exportsUnit b then ⟨[], []⟩
    else
      let line := x.exportLine b
      let warnings : List Warning :=
        match x.clashes b with
        | [] => []
        | ns => [⟨path, "\x60" ++ line ++ "\x60 re-exports names the barrel already exports: " ++
            String.intercalate ", " ns⟩]
      ⟨[insertionOf b line], warnings⟩

/-! ## §5. Both barrels. -/

/-- The edits of the barrels of both directories; if they are one barrel, there are none. -/
def barrelEdits (x : Preparation) : EditSet :=
  let old := findBarrel x.disk x.project x.unit.oldParent
  let new := findBarrel x.disk x.project x.unit.newParent
  let oneBarrel :=
    match old, new with
    | some a, some b => a.same b
    | _, _ => false
  if oneBarrel then ⟨[], []⟩
  else
    let out := (old.map x.removals).getD ⟨[], []⟩
    let into := (new.map x.insertion).getD ⟨[], []⟩
    ⟨out.edits ++ into.edits, out.warnings ++ into.warnings⟩

end Preparation

end ModuleMove
