import ModuleMove.Plan.Basic

/-!
# SPECIFIER EDITS — references that have to say something else after a move

A file that stays and refers to the unit has to name its new place.  A file that travels has to
name everything from its new directory.
-/

namespace ModuleMove

/-! ## §1. The smallest edit of a specifier. -/

/-- The number of bytes of segments, each with the slash behind it. -/
def segmentsLength (ss : List String) : Nat := ss.foldr (fun s n => s.utf8ByteSize + 1 + n) 0

/-- The smallest edit, segment by segment, that makes a specifier another one. -/
def specifierEdit? (path : Path) (r : Reference) (wanted : String) : Option Edit :=
  if r.specifier == wanted then none
  else
    let old := cutText '/' r.specifier
    let new := cutText '/' wanted
    let before := commonLength old new
    let old' := old.drop before
    let new' := new.drop before
    let behind := commonLength old'.reverse new'.reverse
    let oldPart := joinText '/' (old'.take (old'.length - behind))
    let newPart := joinText '/' (new'.take (new'.length - behind))
    let start := r.span.start + segmentsLength (old.take before)
    match oldPart.isEmpty, newPart.isEmpty with
    | true, true => none
    | true, false =>
      if behind == 0 then some ⟨path, r.span.stop, .insert ("/" ++ newPart)⟩
      else some ⟨path, start, .insert (newPart ++ "/")⟩
    | false, true =>
      if behind == 0 then some ⟨path, start - 1, .remove ("/" ++ oldPart)⟩
      else some ⟨path, start, .remove (oldPart ++ "/")⟩
    | false, false => some ⟨path, start, .replace oldPart newPart⟩

namespace Preparation

/-! ## §2. Files that stay. -/

/-- What a reference in a file of the directory `dir` names. -/
def targetOf (p : Project) (dir : Path) (r : Reference) : Path :=
  Specifier.resolve r.specifier dir p.root

/-- The warning about a reference that only shares the unit's name. -/
def nameOnly (u : MovedUnit) (path : Path) (r : Reference) (target : Path) : Warning :=
  ⟨path, "line " ++ toString r.line ++ ": '" ++ r.specifier ++ "' names \x60" ++ u.name ++
    "\x60 but resolves to " ++ target.text ++ "; left unchanged"⟩

/-- What becomes of a reference in a file that stays. -/
def dependentEdit (x : Preparation) (path : Path) (r : Reference) : EditSet :=
  let dir := x.project.directoryOf path
  let target := targetOf x.project dir r
  match x.unit.relocate target with
  | none => ⟨[], [nameOnly x.unit path r target]⟩
  | some moved =>
    ⟨(specifierEdit? path r (Specifier.respecify r.specifier dir moved x.project.root)).toList, []⟩

/-- The edits of all files that stay and name the unit. -/
def dependentEdits (x : Preparation) : EditSet :=
  let sets := x.index.dependents.entries.flatMap fun (path, rs) => rs.map (x.dependentEdit path)
  ⟨sets.flatMap (·.edits), sets.flatMap (·.warnings)⟩

/-! ## §3. Files that travel. -/

/-- What becomes of a reference in a file that travels from the directory `oldDir` to `newDir`. -/
def ownEdit? (x : Preparation) (file oldDir newDir : Path) (r : Reference) : Option Edit :=
  let target := targetOf x.project oldDir r
  let target := (x.unit.relocate target).getD target
  let wanted := Specifier.respecify r.specifier newDir target x.project.root
  if wanted == r.specifier then none
  else some ⟨file, r.span.start, .replace r.specifier wanted⟩

/-- The edits of a file that travels. -/
def ownEditsOf (x : Preparation) (file : Path) : List Edit :=
  match x.index.file? file, x.unit.relocate file with
  | some scanned, some relocated =>
    scanned.relativeReferences.filterMap
      (x.ownEdit? file (x.project.directoryOf file) (x.project.directoryOf relocated))
  | _, _ => []

/-- The edits of all files that travel. -/
def ownEdits (x : Preparation) : List Edit := x.index.travelling.flatMap x.ownEditsOf

end Preparation

end ModuleMove
