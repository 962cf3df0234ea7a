import ModuleMove.Dependents.Listing
import ModuleMove.Proofs.Plan.EditNeeded

/-!
# LISTED REFERENCES — a listing tells what a move will do

What is carried along depends on where a unit is, and not on where it goes.  So the listing of the
references to a unit and every move of it look at the same references, in the same order.  A move
edits those that lead to the unit and warns about the others.

Main statements:
  * `MovedUnit.SameOrigin.travels_eq`, `MovedUnit.SameOrigin.matchesSpecifier_eq` — the destination
    of a unit does not matter to what it carries along and what names it.
  * `listing_agrees` — what a move does about the references that are listed.
  * `listed_reference_unedited` — a reference that a move to the name of a dot passes over.
-/

namespace ModuleMove

open ModuleMove.Path

namespace MovedUnit

/-! ## §1. Where a unit is. -/

/-- Two units are at one place, wherever they go. -/
structure SameOrigin (u v : MovedUnit) : Prop where
  old : v.old = u.old
  style : v.style = u.style
  name : v.name = u.name
  oldParent : v.oldParent = u.oldParent
  extensions : v.extensions = u.extensions
  specSuffixes : v.specSuffixes = u.specSuffixes

/-- Units that are made for one path are at one place. -/
theorem sameOrigin_make (d : Disk) (p : Project) (old new new' : Path) (δ δ' : Delta) :
    (make d p old new δ).SameOrigin (make d p old new' δ') :=
  ⟨rfl, rfl, rfl, rfl, rfl, rfl⟩

variable {u v : MovedUnit}

theorem SameOrigin.isCompanionEnd_eq (h : u.SameOrigin v) (rest : String) :
    v.isCompanionEnd rest = u.isCompanionEnd rest := by
  unfold isCompanionEnd
  rw [h.specSuffixes]

/-- A name is taken along from the one place or from neither. -/
theorem SameOrigin.isSome_relocatedName? (h : u.SameOrigin v) (f : String) :
    (v.relocatedName? f).isSome = (u.relocatedName? f).isSome := by
  unfold relocatedName? renamed?
  rw [h.extensions, h.name]
  cases afterStart? u.name (stripSourceExtension f u.extensions) with
  | none => rfl
  | some rest =>
    simp only [h.isCompanionEnd_eq]
    split <;> rfl

/-- **What is carried along depends on where the unit is.** -/
theorem SameOrigin.travels_eq (h : u.SameOrigin v) (q : Path) : v.travels q = u.travels q := by
  unfold travels relocate
  rw [h.style, h.old, h.oldParent]
  cases u.style with
  | directory =>
    simp only
    split <;> rfl
  | file =>
    simp only [Option.bind_eq_bind]
    cases q.parent? with
    | none => rfl
    | some dir =>
      simp only [Option.bind_some]
      split
      · cases q.fileName? with
        | none => rfl
        | some f =>
          have hf := h.isSome_relocatedName? f
          simp only [Option.bind_some]
          cases hv : v.relocatedName? f <;> cases hu : u.relocatedName? f <;> simp_all
      · rfl

/-- **What names a unit depends on where it is.** -/
theorem SameOrigin.matchesSpecifier_eq (h : u.SameOrigin v) (s : String) :
    v.matchesSpecifier s = u.matchesSpecifier s := by
  unfold matchesSpecifier isName isCompanion
  simp only [h.extensions, h.name, h.style, h.isCompanionEnd_eq]

end MovedUnit

/-- The index of files depends on where the unit is. -/
theorem Index.ofScans_congr {u v : MovedUnit} (h : u.SameOrigin v)
    (skipped : List (Path × Failure)) (scans : List (Path × Except Failure ScannedFile)) :
    ofScans v skipped scans = ofScans u skipped scans := by
  have htravels : v.travels = u.travels := funext h.travels_eq
  have hnaming : naming v = naming u := by
    funext f
    unfold naming
    simp only [h.matchesSpecifier_eq]
  unfold ofScans
  rw [htravels, hnaming]

theorem buildIndex_congr {u v : MovedUnit} (h : u.SameOrigin v) (d : Disk) (p : Project) :
    buildIndex d p v = buildIndex d p u := by
  unfold buildIndex
  simp only [Index.ofScans_congr h]

/-! ## §2. What a move looks at. -/

namespace Preparation

/-- The references that a move looks at, file by file. -/
def considered (x : Preparation) : List (Path × Reference) :=
  x.index.dependents.entries.flatMap fun (file, rs) => rs.map fun r => (file, r)

theorem dependentEdits_eq_considered (x : Preparation) :
    x.dependentEdits = ⟨x.considered.flatMap fun i => (x.dependentEdit i.1 i.2).edits,
      x.considered.flatMap fun i => (x.dependentEdit i.1 i.2).warnings⟩ := by
  unfold dependentEdits considered
  simp only [List.flatMap_assoc, List.flatMap_map]

theorem resolveDependents_of_make {d : Disk} {p : Project} {old new : Path} {x : Preparation}
    (h : make d p old new = .ok x) : resolveDependents d p old new
      = .ok ⟨x.dependentEdits.edits, x.index.skipWarnings ++ x.dependentEdits.warnings⟩ := by
  unfold resolveDependents
  rw [h]
  rfl

/-- What is looked at stands in a scanned file that stays, and names the unit. -/
theorem Sound.mem_considered {x : Preparation} (hx : x.Sound) {q : Path} {r : Reference}
    (h : (q, r) ∈ x.considered) :
    ∃ f ∈ x.index.scanned, f.path = q ∧ r ∈ Index.naming x.unit f := by
  obtain ⟨⟨file, rs⟩, hentry, hmem⟩ := List.mem_flatMap.1 h
  obtain ⟨r', hr, heq⟩ := List.mem_map.1 hmem
  cases heq
  obtain ⟨-, f, hf, hpath, rfl, -⟩ := (hx.index.dependents _ _).1 hentry
  exact ⟨f, hf, hpath, hr⟩

end Preparation

/-! ## §3. What a move does. -/

/-- The warning about a listed reference that only shares the name of the unit. -/
def leftUnchanged (p : Project) (name : String) (r : DependentReference) : Warning :=
  ⟨r.file, "line " ++ toString r.line ++ ": '" ++ r.specifier ++ "' names \x60" ++ name ++
    "\x60 but resolves to " ++ (Specifier.resolve r.specifier (p.directoryOf r.file) p.root).text ++
    "; left unchanged"⟩

/-- What a move does about a listed reference to the unit of some name. -/
structure Answers (p : Project) (name : String) (r : DependentReference) (a : EditSet) : Prop where
  /-- A reference that leads to the unit gets one edit, in its file. -/
  led : r.resolves = true → ¬ Specifier.Doubled r.specifier →
    ∃ e, a = ⟨[e], []⟩ ∧ e.target = r.file
  /-- Of one that does not, the user is warned. -/
  named : r.resolves = false → a = ⟨[], [leftUnchanged p name r]⟩

/-- The listing of the references to a unit. -/
def listing (p : Project) (u : MovedUnit) (x : Index) : Listing where
  unit := u.old
  style := u.style
  references := x.dependents.entries.flatMap fun (file, rs) => rs.map (listed p u file)
  travelling := x.travelling
  warnings := x.skipWarnings
  filesScanned := x.filesScanned

theorem listDependents_eq_ok {d : Disk} {p : Project} {path : Path} {l : Listing} :
    listDependents d p path = .ok l ↔ ∃ place added x, locateUnit d p path = .ok (place, added) ∧
      Delta.inside p.root place = true ∧ buildIndex d p (.stationary d p place) = .ok x ∧
      l = listing p (.stationary d p place) x := by
  constructor
  · intro h
    unfold listDependents at h
    obtain ⟨⟨place, added⟩, hl, h⟩ := exists_of_bind_eq_ok h
    simp only at h
    split at h
    · cases h
    · rename_i hinside
      obtain ⟨x, hx, h⟩ := exists_of_bind_eq_ok h
      exact ⟨place, added, x, hl, by simpa using hinside, hx, (Except.ok.inj h).symm⟩
  · rintro ⟨place, added, x, hl, hinside, hx, rfl⟩
    unfold listDependents
    rw [hl]
    show (if (!Delta.inside p.root place) = true then _ else _) = _
    rw [hinside]
    show (buildIndex d p _ >>= fun x => _) = _
    rw [hx]
    rfl

namespace Preparation

variable {d : Disk} {p : Project} {old new : Path} {x : Preparation} {rs : List String}

/-- A move and the listing look at one index. -/
theorem listDependents_of_make {l : Listing} (h : make d p old new = .ok x)
    (hl : listDependents d p old = .ok l) : ∃ u : MovedUnit, x.unit.SameOrigin u ∧
      u = .stationary d p x.unit.old ∧ l = listing p u x.index := by
  obtain ⟨place, added, y, hlocated, -, hy, rfl⟩ := listDependents_eq_ok.1 hl
  obtain ⟨old', new', δ, hc, hu, -, -, -, -, hindex, -⟩ := make_eq_ok h
  obtain ⟨added', hlocated', -⟩ := check_eq_ok hc
  obtain rfl : place = old' := by
    rw [hlocated] at hlocated'
    exact (Prod.mk.inj (Except.ok.inj hlocated')).1
  have horigin : x.unit.SameOrigin (.stationary d p place) := by
    rw [hu]
    exact MovedUnit.sameOrigin_make ..
  rw [buildIndex_congr horigin, hindex] at hy
  obtain rfl := Except.ok.inj hy
  exact ⟨_, horigin, by rw [hu]; rfl, rfl⟩

/-- What is moved can be listed, if no extension has a slash in it. -/
theorem exists_listing (hd : d.WellFormed) (hroot : p.root.Straight rs)
    (hexts : ∀ ext ∈ p.extensions, '/' ∉ ext.toList) (h : make d p old new = .ok x) :
    ∃ l, listDependents d p old = .ok l := by
  obtain ⟨old', new', δ, hc, hu, -, -, -, -, hindex, -⟩ := make_eq_ok h
  obtain ⟨added, hlocated, -, hδ, -⟩ := check_eq_ok hc
  obtain ⟨ns, hns⟩ := straight_locateUnit hd.rooted hroot hexts hlocated
  -- what is located makes no detours, so that it lies in the project as it is written
  have hinside := (Delta.refusals_of_compute hδ).2.1
  have hcomponents : ∀ {q : Path} {ks : List String}, q.Straight ks →
      q.normalize.components = q.components := fun hq => by
    rw [components_normalize, normalComponents_of_normal hq.goesOn.normal]
  rw [Delta.inside_iff, hcomponents hns, hcomponents hroot, ← Delta.inside_iff] at hinside
  have horigin : x.unit.SameOrigin (.stationary d p old') := by
    rw [hu]
    exact MovedUnit.sameOrigin_make ..
  exact ⟨_, listDependents_eq_ok.2 ⟨old', added, x.index, hlocated, hinside,
    by rw [buildIndex_congr horigin, hindex], rfl⟩⟩

theorem dependentEdit_of_led {q m : Path} {r : Reference}
    (hm : x.unit.relocate (targetOf x.project (x.project.directoryOf q) r) = some m) :
    x.dependentEdit q r = ⟨(x.dependentEdit? q r).toList, []⟩ := by
  unfold dependentEdit dependentEdit?
  simp only [hm, Option.bind_some]

theorem dependentEdit_of_stays {q : Path} {r : Reference}
    (hm : x.unit.relocate (targetOf x.project (x.project.directoryOf q) r) = none) :
    x.dependentEdit q r
      = ⟨[], [nameOnly x.unit q r (targetOf x.project (x.project.directoryOf q) r)]⟩ := by
  unfold dependentEdit
  simp only [hm]

/-- What a move does about a reference that it looks at, as it is listed. -/
theorem answers_dependentEdit {u : MovedUnit} {q : Path} {r : Reference} (hd : d.WellFormed)
    (hroot : p.root.Straight rs) (h : make d p old new = .ok x) (hu : x.unit.SameOrigin u)
    (hdot : x.unit.newName ≠ ".") (hmem : (q, r) ∈ x.considered) :
    Answers p u.name (listed p u q r) (x.dependentEdit q r) := by
  obtain ⟨f, hf, rfl, hr⟩ := (sound_of_make hd h).mem_considered hmem
  obtain ⟨-, -, -, -, -, -, rfl, -⟩ := make_eq_ok h
  have hresolves : (listed x.project u f.path r).resolves
      = (x.unit.relocate (targetOf x.project (x.project.directoryOf f.path) r)).isSome :=
    hu.travels_eq _
  constructor
  · intro hyes hdoubled
    rw [hresolves] at hyes
    obtain ⟨m, hm⟩ := Option.isSome_iff_exists.1 hyes
    obtain ⟨e, he, htarget⟩ := exists_dependentEdit hd hroot h hf hr hdoubled hdot hm
    refine ⟨e, ?_, htarget⟩
    rw [dependentEdit_of_led hm, he]
    rfl
  · intro hno
    rw [hresolves, Option.isSome_eq_false_iff, Option.isNone_iff_eq_none] at hno
    rw [dependentEdit_of_stays hno]
    unfold nameOnly
    rw [← hu.name]
    rfl

end Preparation

/-- **The listing of the references to a unit agrees with every move of it**, unless the unit gets
    the name of a dot.  Whatever the destination, both see the same files travel, and the references
    that are listed are, one by one, those that the move looks at. -/
theorem listing_agrees {d : Disk} {root : Path} {c : Config} {old new : Path} {s : EditSet}
    (hd : d.WellFormed) (habs : root.isAbsolute = true)
    (h : resolveDependents d (.ofRoot root c) old new = .ok s) :
    ∃ pl, plan d (.ofRoot root c) old new = .ok pl ∧
      ((∀ ext ∈ c.extensions, '/' ∉ ext.toList) →
        ∃ l, listDependents d (.ofRoot root c) old = .ok l) ∧
      ((MovedUnit.make d (.ofRoot root c) pl.old pl.new pl.delta).newName ≠ "." →
        ∀ l, listDependents d (.ofRoot root c) old = .ok l →
          l.unit = pl.old ∧ l.travelling = pl.travelling ∧ ∃ answers,
            List.Forall₂ (Answers (.ofRoot root c)
              (MovedUnit.stationary d (.ofRoot root c) l.unit).name) l.references answers ∧
            s.edits = answers.flatMap (·.edits) ∧
            s.warnings = l.warnings ++ answers.flatMap (·.warnings)) := by
  obtain ⟨rs, hroot⟩ := Project.straight_ofRoot habs c
  unfold resolveDependents at h
  obtain ⟨x, hx, h⟩ := exists_of_bind_eq_ok h
  obtain rfl := Except.ok.inj h
  refine ⟨x.plan, Preparation.plan_of_make hx,
    fun hexts => Preparation.exists_listing hd hroot hexts hx, fun hdot l hl => ?_⟩
  rw [(Preparation.unit_of_make hx).2.2] at hdot
  obtain ⟨u, hu, hstationary, rfl⟩ := Preparation.listDependents_of_make hx hl
  have hname : (MovedUnit.stationary d (.ofRoot root c)
      (listing (.ofRoot root c) u x.index).unit).name = u.name := by
    show (MovedUnit.stationary d (.ofRoot root c) u.old).name = u.name
    rw [hu.old, ← hstationary]
  rw [hname]
  refine ⟨hu.old, rfl, x.considered.map fun i => x.dependentEdit i.1 i.2, ?_, ?_, ?_⟩
  · -- both lists come from that of the references that are looked at
    have hreferences : (listing (.ofRoot root c) u x.index).references
        = x.considered.map fun i => listed (.ofRoot root c) u i.1 i.2 := by
      show x.index.dependents.entries.flatMap _ = _
      unfold Preparation.considered
      rw [List.map_flatMap]
      simp only [List.map_map, Function.comp_def]
    rw [hreferences, List.forall₂_map_left_iff, List.forall₂_map_right_iff, List.forall₂_same]
    exact fun i hi => Preparation.answers_dependentEdit hd hroot hx hu hdot hi
  · rw [Preparation.dependentEdits_eq_considered, List.flatMap_map]
  · rw [Preparation.dependentEdits_eq_considered, List.flatMap_map]
    rfl

/-! ## §4. Two moves. -/

/-- A disk with a file that refers to a directory and to something of the same name. -/
def namedDisk : Disk where
  top := .directory [("a.ts", .file (.text "import './lib';\nimport './q/lib';\n")),
    ("lib", .directory [])]
  here := []

theorem wellFormed_namedDisk : namedDisk.WellFormed := by
  refine ⟨?_, _, rfl⟩
  simp only [namedDisk, Node.WellFormed, Node.AllWellFormed]
  decide

/-- The one reference is edited, and of the other one the user is warned. -/
theorem named_listing_agrees : ∃ s pl l,
    resolveDependents namedDisk smallProject ⟨"lib"⟩ ⟨"r/lib"⟩ = .ok s ∧
      plan namedDisk smallProject ⟨"lib"⟩ ⟨"r/lib"⟩ = .ok pl ∧
      (MovedUnit.make namedDisk smallProject pl.old pl.new pl.delta).newName ≠ "." ∧
      listDependents namedDisk smallProject ⟨"lib"⟩ = .ok l ∧
      l.references.map (fun r => (r.specifier, r.resolves))
        = [("./lib", true), ("./q/lib", false)] ∧
      l.unit = pl.old ∧ l.travelling = pl.travelling ∧ ∃ answers,
        List.Forall₂
          (Answers smallProject (MovedUnit.stationary namedDisk smallProject l.unit).name)
          l.references answers ∧
        s.edits = answers.flatMap (·.edits) ∧
        s.warnings = l.warnings ++ answers.flatMap (·.warnings) := by
  obtain ⟨s, hs⟩ := Option.isSome_iff_exists.1 (show (resolveDependents namedDisk smallProject
    ⟨"lib"⟩ ⟨"r/lib"⟩).toOption.isSome = true by decide +kernel)
  obtain ⟨pl, hpl, hlists, hagrees⟩ :=
    listing_agrees wellFormed_namedDisk (by decide) (eq_ok_of_toOption hs)
  obtain ⟨l, hl⟩ : ∃ l, listDependents namedDisk smallProject ⟨"lib"⟩ = .ok l :=
    hlists (by decide)
  obtain ⟨pl', hpl', hname⟩ := exists_plan_of_map (show (plan namedDisk smallProject ⟨"lib"⟩
    ⟨"r/lib"⟩).toOption.map (fun pl => (MovedUnit.make namedDisk smallProject pl.old pl.new
      pl.delta).newName) = some "lib" by decide +kernel)
  obtain rfl : pl = pl' := Except.ok.inj (hpl.symm.trans hpl')
  have hdot : (MovedUnit.make namedDisk smallProject pl.old pl.new pl.delta).newName ≠ "." := by
    rw [hname]
    decide
  have hreferences : (listDependents namedDisk smallProject ⟨"lib"⟩).toOption.map
      (fun l => l.references.map fun r => (r.specifier, r.resolves))
        = some [("./lib", true), ("./q/lib", false)] := by decide +kernel
  rw [hl] at hreferences
  exact ⟨s, pl, l, eq_ok_of_toOption hs, hpl, hdot, hl, Option.some.inj hreferences,
    hagrees hdot l hl⟩

/-- A disk with a file that refers to another one. -/
def dotDisk : Disk where
  top := .directory [("foo.ts", .file (.text "export const x = 1;\n")),
    ("main.ts", .file (.text "import { x } from './foo';\n"))]
  here := []

/-- **A reference that is listed as one to the unit is neither edited nor warned about**, where the
    file goes into a directory of its own name and gets the name of a dot: the specifier of the
    module is then that of the directory. -/
theorem listed_reference_unedited : ∃ s l r,
    resolveDependents dotDisk smallProject ⟨"foo.ts"⟩ ⟨"foo/..ts"⟩ = .ok s ∧
      listDependents dotDisk smallProject ⟨"foo.ts"⟩ = .ok l ∧ l.references = [r] ∧
      r.resolves = true ∧ r.specifier = "./foo" ∧ ¬ Specifier.Doubled r.specifier ∧
      s.edits = [] ∧ s.warnings = [] := by
  have hcheck : Preparation.check dotDisk smallProject ⟨"foo.ts"⟩ ⟨"foo/..ts"⟩
      = .ok (⟨"/foo.ts"⟩, ⟨"/foo/..ts"⟩, ⟨"foo", .moveDown, 1, [], ["foo"]⟩) := rfl
  have hfound : discover dotDisk smallProject
      = .ok ⟨[(⟨"/foo.ts"⟩, .typeScript), (⟨"/main.ts"⟩, .typeScript)], []⟩ :=
    discover_smallProject rfl (by decide +kernel) (List.pairwise_pair.2 (by decide +kernel))
  have hmade := Preparation.make_of_found hcheck (by decide +kernel) hfound (by decide +kernel)
  have hlisted : listDependents dotDisk smallProject ⟨"foo.ts"⟩ = .ok _ :=
    listDependents_eq_ok.2 ⟨⟨"/foo.ts"⟩, none, _, rfl, by decide +kernel,
      Preparation.buildIndex_of_found hfound _, rfl⟩
  refine ⟨_, _, ⟨⟨"/main.ts"⟩, 1, "./foo", .imports, true⟩,
    Preparation.resolveDependents_of_make hmade, hlisted, by decide +kernel, rfl, rfl, ?_,
    by decide +kernel, by decide +kernel⟩
  rw [Specifier.doubled_iff]
  rintro ⟨q, qs, h⟩
  have hhead : (cutText '/' "./foo").head? = some "" := congrArg List.head? h
  exact absurd hhead (by decide +kernel)

end ModuleMove
