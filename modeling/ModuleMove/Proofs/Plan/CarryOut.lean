import ModuleMove.Plan.CarryOut
import ModuleMove.Proofs.Plan.Barrels

/-!
# CARRYING OUT A PLAN — a plan for an unchanged tree succeeds for every file

The edits of a plan are made for the files as they are.  They fit, none is in the way of another,
and no two files of a plan are one place.  So all of them are made.

Main statements:
  * `edits_of_plan_succeed` — the edits of each file can be made, and applying all of them succeeds.
-/

namespace ModuleMove

/-- The barrels of the directories that the unit of a plan leaves and enters do not travel. -/
def Plan.BarrelsStay (d : Disk) (p : Project) (pl : Plan) : Prop :=
  let u := MovedUnit.make d p pl.old pl.new pl.delta
  ∀ b, findBarrel d p u.oldParent = some b ∨ findBarrel d p u.newParent = some b →
    ∀ t ∈ pl.travelling, t.same b = false

namespace Preparation

variable {x : Preparation}

/-- A scanned file lies below the root of the project, under any spelling. -/
theorem Sound.exists_goesOn (hx : x.Sound) {f : ScannedFile} {p : Path}
    (hf : f ∈ x.index.scanned) (hfp : f.path.same p = true) :
    ∃ ns, x.project.root.GoesOn p ns := by
  obtain ⟨ns, hns, -⟩ := hx.index.goesOn f hf
  exact ⟨ns, hns.1, by rw [← Path.same_iff.1 hfp]; exact hns.2⟩

/-! ## §1. Lists of edits. -/

/-- Edits of scanned files that can all be made: each fits the text of its file, and those of one
    file are beside each other. -/
structure Makes (x : Preparation) (es : List Edit) : Prop where
  /-- Each edit is about a scanned file and fits its text. -/
  placed : ∀ e ∈ es, ∃ f s, x.Placed e f s
  /-- Edits of one file are beside each other. -/
  beside : es.Pairwise BesideInFile

section

variable {es : List Edit}

/-- Edits of one file that are beside each other are not in conflict. -/
theorem pairwise_not_conflicts_of_beside (h : es.Pairwise BesideInFile)
    (hbound : ∀ e ∈ es, e.Bounded) (t : Path) :
    (es.filter fun e => e.target.same t).Pairwise fun a b => a.conflicts b = false := by
  refine (h.filter _).imp_of_mem fun {a b} ha hb hab => ?_
  obtain ⟨ha, hat⟩ := List.mem_filter.1 ha
  obtain ⟨hb, hbt⟩ := List.mem_filter.1 hb
  exact Edit.conflicts_of_beside (hbound a ha) (hbound b hb)
    (hab (Path.same_trans hat (Path.same_symm hbt)))

theorem Makes.bounded (hm : x.Makes es) : ∀ e ∈ es, e.Bounded := by
  intro e he
  obtain ⟨f, s, hf⟩ := hm.placed e he
  exact hf.bounded

/-- The edits of one file fit what is read there. -/
theorem Sound.fits_of_placed (hx : x.Sound) (hes : ∀ e ∈ es, ∃ f s, x.Placed e f s) {e : Edit}
    (he : e ∈ es) : ∃ s, x.disk.readText e.target = .ok s ∧
      ∀ b ∈ es.filter (fun b => b.target.same e.target), b.FitsIn s.toList ∧ b.Substantial := by
  obtain ⟨f, s, hf⟩ := hes e he
  refine ⟨s, hf.text, fun b hb => ?_⟩
  obtain ⟨hb, hsame⟩ := List.mem_filter.1 hb
  obtain ⟨g, t, hg⟩ := hes b hb
  obtain ⟨-, rfl⟩ := hx.eq_of_same hg hf hsame
  exact ⟨hg.fits, hg.substantial⟩

/-- Files are edited at places of their own, on any disk. -/
theorem Sound.pairwise_elsewhere_of_placed (hx : x.Sound)
    (hes : ∀ e ∈ es, ∃ f s, x.Placed e f s) (d : Disk) :
    (editsByFile es).Pairwise fun a b => Elsewhere d a.1 b.1 := by
  refine (sorted_editsByFile _).imp_of_mem fun {a b} ha hb hlt => ?_
  obtain ⟨-, e, he, hea⟩ := mem_editsByFile ha
  obtain ⟨-, f, hf, hfb⟩ := mem_editsByFile hb
  -- edits are about scanned files, which go on from the root of the project by their names
  obtain ⟨g, s, hg⟩ := hes e he
  obtain ⟨k, t, hk⟩ := hes f hf
  rw [← hea, ← hfb] at hlt ⊢
  obtain ⟨ns, hns⟩ := hx.exists_goesOn hg.shows.mem hg.same
  obtain ⟨ms, hms⟩ := hx.exists_goesOn hk.shows.mem hk.same
  refine d.elsewhere_of_goesOn hns hms ?_
  rintro rfl
  rw [Path.compare_eq_iff.2 (Path.same_iff.2 (hns.2.trans hms.2.symm))] at hlt
  cases hlt

/-- The edits of each file can be made. -/
theorem Makes.editedText? (hm : x.Makes es) (hx : x.Sound) {t : Path} {bs : List Edit}
    (h : (t, bs) ∈ editsByFile es) :
    ∃ s ds, x.disk.readText t = .ok s ∧
      ModuleMove.editedText? x.disk t bs = .ok (String.ofList (spliced bs s.toList), ds) := by
  obtain ⟨rfl, e, he, rfl⟩ := mem_editsByFile h
  obtain ⟨s, hs, hall⟩ := hx.fits_of_placed hm.placed he
  have hok := applyBatch_eq_ok e.target s (fun b hb => (hall b hb).2)
    (fun b hb => hm.bounded b (List.mem_filter.1 hb).1)
    (pairwise_not_conflicts_of_beside hm.beside hm.bounded e.target) fun b hb => (hall b hb).1
  have hedited : ∃ ds, ModuleMove.editedText? x.disk e.target
      (es.filter fun b => b.target.same e.target)
      = .ok (String.ofList (spliced (es.filter fun b => b.target.same e.target) s.toList), ds) := by
    unfold ModuleMove.editedText?
    rw [hs]
    exact ⟨_, hok⟩
  obtain ⟨ds, hds⟩ := hedited
  exact ⟨s, ds, hs, hds⟩

/-- All outcomes are successes. -/
theorem Makes.outcomes (hm : x.Makes es) (hx : x.Sound) :
    ∀ o ∈ (applyEdits x.disk es).1, o.status = .succeeded := by
  unfold applyEdits
  rw [editFiles_outcomes hx.disk (hx.pairwise_elsewhere_of_placed hm.placed x.disk)]
  intro o ho
  obtain ⟨⟨t, bs⟩, hb, rfl⟩ := List.mem_map.1 ho
  obtain ⟨s, ds, -, hok⟩ := hm.editedText? hx hb
  obtain ⟨e, pl, c, -, he, -⟩ := editFile_of_ok hx.disk hok
  rw [he]

/-- A file below the root that is not edited is read as before. -/
theorem Makes.readText_of_unedited (hm : x.Makes es) (hx : x.Sound) {q : Path} {ns : List String}
    (hq : x.project.root.GoesOn q ns) (hno : ∀ e ∈ es, e.target.same q = false) :
    (applyEdits x.disk es).2.readText q = x.disk.readText q := by
  obtain ⟨-, -, haway⟩ := readText_editFiles_of_elsewhere hx.disk (editsByFile es)
  refine haway q ?_
  rintro ⟨t, bs⟩ hg
  obtain ⟨-, e, he, rfl⟩ := mem_editsByFile hg
  obtain ⟨g, u, hu⟩ := hm.placed e he
  obtain ⟨ms, hms⟩ := hx.exists_goesOn hu.shows.mem hu.same
  refine x.disk.elsewhere_of_goesOn hms hq ?_
  rintro rfl
  have := hno e he
  rw [Path.same_iff.2 (hms.2.trans hq.2.symm)] at this
  cases this

/-- **A scanned file holds its text with its edits made.** -/
theorem Makes.readText (hm : x.Makes es) (hx : x.Sound) {f : ScannedFile} {s : String}
    (hs : x.Shows f s) : (applyEdits x.disk es).2.readText f.path
      = .ok (String.ofList (spliced (es.filter fun e => e.target.same f.path) s.toList)) := by
  obtain ⟨-, hshape, -⟩ := readText_editFiles_of_elsewhere hx.disk (editsByFile es)
  by_cases hedited : ∃ e ∈ es, e.target.same f.path = true
  · obtain ⟨e, he, hsame⟩ := hedited
    obtain ⟨t, bs, hg, het⟩ := exists_mem_editsByFile he
    have htf : t.same f.path = true := Path.same_trans (Path.same_symm het) hsame
    obtain ⟨u, ds, hu, hedit⟩ := hm.editedText? hx hg
    obtain rfl := readText_congr htf hu hs.text
    have hread :=
      readText_editFiles hx.disk (hx.pairwise_elsewhere_of_placed hm.placed x.disk) hg hedit
    -- the file is edited under the first spelling of its path
    have hfilter : bs = es.filter fun b => b.target.same f.path := by
      rw [(mem_editsByFile hg).1]
      refine List.filter_congr fun b _ => ?_
      rw [Bool.eq_iff_iff]
      exact ⟨fun h => Path.same_trans h htf, fun h => Path.same_trans h (Path.same_symm htf)⟩
    rw [hfilter] at hread
    obtain ⟨tl, htl⟩ := Disk.readText_eq_ok.1 hread
    obtain ⟨pl, hpl⟩ := Disk.readText_eq_ok.1 hs.text
    have hplace := Disk.place_of_sameShape hshape f.path
    rw [hpl] at hplace
    cases hf : (editFiles x.disk (editsByFile es)).2.locate f.path with
    | error e => rw [hf] at hplace; cases hplace
    | ok r =>
      rw [Disk.locate_congr (Path.same_symm htf) hf htl] at hf
      exact Disk.readText_eq_ok.2 ⟨tl, hf⟩
  · have hno : ∀ e ∈ es, e.target.same f.path = false := fun e he =>
      Bool.eq_false_iff.2 fun hsame => hedited ⟨e, he, hsame⟩
    have hnone : es.filter (fun e => e.target.same f.path) = [] := by
      rw [List.filter_eq_nil_iff]
      exact fun e he hsame => hedited ⟨e, he, hsame⟩
    obtain ⟨ns, hns⟩ := hx.exists_goesOn hs.mem (Path.same_refl _)
    rw [hm.readText_of_unedited hx hns hno, hs.text, hnone]
    unfold spliced splicedEnd
    rw [splicedFrom_nil]
    show Except.ok s = .ok (String.ofList (s.toList ++ []))
    rw [List.append_nil, String.ofList_toList]

end

/-! ## §2. The edits of a plan. -/

theorem Sound.makes_plan (hx : x.Sound) (hc : x.Compatible) : x.Makes x.plan.edits :=
  ⟨fun _ he => hx.placed he, hx.pairwise_beside hc⟩

/-- The edits of a plan stop at machine words. -/
theorem Sound.bounded (hx : x.Sound) {e : Edit} (he : e ∈ x.plan.edits) : e.Bounded := by
  obtain ⟨f, s, hf⟩ := hx.placed he
  exact hf.bounded

/-- The edits of one file, as they are in the plan. -/
theorem Sound.pairwise_not_conflicts (hx : x.Sound) (hc : x.Compatible) (t : Path) :
    (x.plan.edits.filter fun e => e.target.same t).Pairwise fun a b => a.conflicts b = false :=
  pairwise_not_conflicts_of_beside (hx.pairwise_beside hc) (fun _ => hx.bounded) t

theorem Sound.pairwise_conflicts (hx : x.Sound) (hstay : x.BarrelsStay) (t : Path) :
    (x.plan.edits.filter fun e => e.target.same t).Pairwise fun a b => a.conflicts b = false :=
  hx.pairwise_not_conflicts (hx.compatible_of_stays hstay) t

/-- The edits of one file fit what is read there. -/
theorem Sound.fits (hx : x.Sound) {e : Edit} (he : e ∈ x.plan.edits) :
    ∃ s, x.disk.readText e.target = .ok s ∧
      ∀ b ∈ x.plan.edits.filter (fun b => b.target.same e.target),
        b.FitsIn s.toList ∧ b.Substantial :=
  hx.fits_of_placed (fun _ => hx.placed) he

/-- The files of a plan are at places of their own, on any disk. -/
theorem Sound.pairwise_elsewhere (hx : x.Sound) (d : Disk) :
    (editsByFile x.plan.edits).Pairwise fun a b => Elsewhere d a.1 b.1 :=
  hx.pairwise_elsewhere_of_placed (fun _ => hx.placed) d

/-- All outcomes are successes. -/
theorem Sound.outcomes (hx : x.Sound) (hstay : x.BarrelsStay) :
    ∀ o ∈ (applyEdits x.disk x.plan.edits).1, o.status = .succeeded :=
  (hx.makes_plan (hx.compatible_of_stays hstay)).outcomes hx

/-- A prepared plan keeps the unit of its preparation. -/
theorem unit_of_make {d : Disk} {p : Project} {old new : Path} (h : make d p old new = .ok x) :
    x.disk = d ∧ x.project = p ∧
      MovedUnit.make d p x.plan.old x.plan.new x.plan.delta = x.unit := by
  obtain ⟨old', new', δ, -, hu, hδ, rfl, rfl, -⟩ := make_eq_ok h
  refine ⟨rfl, rfl, ?_⟩
  show MovedUnit.make x.disk x.project x.unit.old x.unit.new x.delta = _
  rw [hδ, hu]
  rfl

theorem barrelsStay_plan_iff {d : Disk} {p : Project} {old new : Path}
    (h : make d p old new = .ok x) : x.plan.BarrelsStay d p ↔ x.BarrelsStay := by
  obtain ⟨rfl, rfl, hu⟩ := unit_of_make h
  unfold Plan.BarrelsStay BarrelsStay
  rw [hu]
  rfl

/-- The outcomes of a plan, on any disk, are those of the files that its edits are gathered for. -/
theorem Sound.outcomes_eq (hx : x.Sound) {d : Disk} (hd : d.WellFormed) :
    (applyEdits d x.plan.edits).1
      = (editsByFile x.plan.edits).map fun g => (editFile d g.1 g.2).1 :=
  editFiles_outcomes hd (hx.pairwise_elsewhere d)

/-- An outcome names the path that edits are gathered for. -/
theorem Sound.exists_group (hx : x.Sound) {d : Disk} (hd : d.WellFormed) {o : FileOutcome}
    (ho : o ∈ (applyEdits d x.plan.edits).1) :
    ∃ es, (o.path, es) ∈ editsByFile x.plan.edits ∧ (editFile d o.path es).1 = o := by
  rw [hx.outcomes_eq hd] at ho
  obtain ⟨⟨t, es⟩, hg, rfl⟩ := List.mem_map.1 ho
  simp only [(path_editFile d t es).1]
  exact ⟨es, hg, rfl⟩

/-- Each file that is edited has an outcome. -/
theorem Sound.exists_outcome (hx : x.Sound) {d : Disk} (hd : d.WellFormed) {e : Edit}
    (he : e ∈ x.plan.edits) :
    ∃ o ∈ (applyEdits d x.plan.edits).1, o.path.same e.target = true := by
  obtain ⟨t, g, hg, hs⟩ := exists_mem_editsByFile he
  rw [hx.outcomes_eq hd]
  refine ⟨_, List.mem_map_of_mem hg, ?_⟩
  rw [(path_editFile d t g).1]
  exact Path.same_symm hs

end Preparation

/-- **A plan for an unchanged tree can be carried out.**  With the default names of sources and
    barrels, the barrels of both parent directories stay.  If they do, the edits of each file are
    not in conflict with one another and fit what the file holds, and all files are edited. -/
theorem edits_of_plan_succeed {d : Disk} {root : Path} {c : Config} {old new : Path} {pl : Plan}
    (hd : d.WellFormed) (h : plan d (.ofRoot root c) old new = .ok pl) :
    ((Project.ofRoot root c).NamesDefault → pl.BarrelsStay d (.ofRoot root c)) ∧
    (pl.BarrelsStay d (.ofRoot root c) →
      (∀ e ∈ pl.edits,
        (pl.edits.filter fun b => b.target.same e.target).Pairwise
          (fun a b => a.conflicts b = false) ∧
        (∃ s, d.readText e.target = .ok s ∧
          ∀ b ∈ pl.edits.filter (fun b => b.target.same e.target), b.FitsIn s.toList) ∧
        ∃ o ∈ (applyEdits d pl.edits).1, o.path.same e.target = true) ∧
      ∀ o ∈ (applyEdits d pl.edits).1, o.status = .succeeded) := by
  obtain ⟨x, hx, rfl⟩ := Preparation.plan_eq_ok h
  have hsound := Preparation.sound_of_make hd hx
  have hroot := Project.normal_root_ofRoot root c
  rw [Preparation.barrelsStay_plan_iff hx]
  refine ⟨fun hp => Preparation.barrelsStay_of_default hd hroot hp hx, fun hstay => ?_⟩
  obtain ⟨rfl, -, -⟩ := Preparation.unit_of_make hx
  refine ⟨fun e he => ⟨hsound.pairwise_conflicts hstay e.target, ?_, hsound.exists_outcome hd he⟩,
    hsound.outcomes hstay⟩
  obtain ⟨s, hs, hfits⟩ := hsound.fits he
  exact ⟨s, hs, fun b hb => (hfits b hb).1⟩

/-! ## §3. A small project. -/

/-- A disk with a source file that imports the directory beside it. -/
def smallDisk : Disk where
  top := .directory [("a.ts", .file (.text "import './lib';\n")), ("lib", .directory []),
    ("q", .directory [])]
  here := []

/-- All of the small disk, with the default configuration. -/
def smallProject : Project := .ofRoot ⟨"/"⟩ Config.default

/-- The directory of the small disk, on its way into another one. -/
def smallUnit : MovedUnit :=
  .make smallDisk smallProject ⟨"/lib"⟩ ⟨"/q/lib"⟩ ⟨"q", .moveDown, 1, [], ["q"]⟩

theorem wellFormed_smallDisk : smallDisk.WellFormed := by
  refine ⟨?_, _, rfl⟩
  simp only [smallDisk, Node.WellFormed, Node.AllWellFormed]
  decide

/-- The rules of the default configuration. -/
def defaultRules : List Ignore.Rule :=
  (Discovery.ownRules Config.default).toOption.getD []

/-- What is found on any disk by the rules of the default configuration. -/
theorem discover_smallProject {d : Disk} {es : List (String × Node)}
    {files : List (Path × Language)} (htop : d.locate ⟨"/"⟩ = .ok ([], .directory es))
    (hfiles : (Discovery.filesIn ⟨d, [], defaultRules⟩
      ((Ignore.layerOf d [] es).1 :: (Discovery.layersAbove d []).1) [] ⟨"/"⟩ es).filterMap
        (Discovery.sourceOf? Config.default) = files)
    (hs : files.Pairwise fun a b => a.1.le b.1 = true) :
    discover d smallProject
      = .ok ⟨files, Discovery.aboveFailures ⟨"/"⟩ (Discovery.layersAbove d []).2⟩ := by
  have hown : Discovery.ownRules smallProject.config = .ok defaultRules := by
    have hsome : (Discovery.ownRules Config.default).toOption.isSome = true := by decide +kernel
    unfold defaultRules
    show Discovery.ownRules Config.default = _
    cases ho : Discovery.ownRules Config.default with
    | error e => rw [ho] at hsome; cases hsome
    | ok own => rfl
  exact discover_of_sorted htop hown hfiles hs

theorem discover_smallDisk :
    discover smallDisk smallProject = .ok ⟨[(⟨"/a.ts"⟩, .typeScript)], []⟩ :=
  discover_smallProject rfl (by decide +kernel) (List.pairwise_singleton ..)

/-- What is known when the small unit is moved. -/
def smallPreparation : Preparation :=
  .ofStaying smallDisk smallProject smallUnit ⟨"q", .moveDown, 1, [], ["q"]⟩
    ⟨[(⟨"/a.ts"⟩, .typeScript)], []⟩

/-- The move of the small unit is prepared. -/
theorem prepared_smallDisk :
    Preparation.make smallDisk smallProject ⟨"lib"⟩ ⟨"q/lib"⟩ = .ok smallPreparation := by
  have hcheck : Preparation.check smallDisk smallProject ⟨"lib"⟩ ⟨"q/lib"⟩
      = .ok (⟨"/lib"⟩, ⟨"/q/lib"⟩, ⟨"q", .moveDown, 1, [], ["q"]⟩) := rfl
  exact Preparation.make_of_staying hcheck rfl discover_smallDisk (by decide +kernel)

/-- The reference of the source file of the small disk. -/
def smallReference : Reference :=
  ⟨⟨"/a.ts"⟩, "./lib", ⟨8, 13⟩, ⟨0, 15⟩, .imports, [], 1⟩

/-- The source file of the small disk, as it is scanned. -/
def smallFile : ScannedFile := ⟨⟨"/a.ts"⟩, .typeScript, [smallReference], [], []⟩

theorem scanned_smallPreparation : smallPreparation.index.scanned = [smallFile] := by
  decide +kernel

/-! ## §4. A project with several edits. -/

/-- A disk with a file that names a directory twice and a barrel that exports it; in the directory
    is a file that travels, and there is a barrel where it goes. -/
def busyDisk : Disk where
  top := .directory [("a.ts", .file (.text "import './lib';\nimport './lib/m';\n")),
    ("index.ts", .file (.text "export * from './lib';\n")),
    ("lib", .directory [("m.ts", .file (.text "import '../a';\n"))]),
    ("q", .directory [("index.ts", .file (.text "export const n = 1;\n"))])]
  here := []

theorem wellFormed_busyDisk : busyDisk.WellFormed := by
  refine ⟨?_, _, rfl⟩
  simp only [busyDisk, Node.WellFormed, Node.AllWellFormed]
  decide

/-- The directory of the busy disk, on its way into another one. -/
def busyUnit : MovedUnit :=
  .make busyDisk smallProject ⟨"/lib"⟩ ⟨"/q/lib"⟩ ⟨"q", .moveDown, 1, [], ["q"]⟩

/-- The source files of the busy disk. -/
def busyFiles : List (Path × Language) :=
  [(⟨"/a.ts"⟩, .typeScript), (⟨"/index.ts"⟩, .typeScript), (⟨"/lib/m.ts"⟩, .typeScript),
    (⟨"/q/index.ts"⟩, .typeScript)]

theorem discover_busyDisk : discover busyDisk smallProject = .ok ⟨busyFiles, []⟩ :=
  discover_smallProject rfl (by decide +kernel) (by decide +kernel)

/-- What is known when the busy unit is moved. -/
def busyPreparation : Preparation :=
  .ofFound busyDisk smallProject busyUnit ⟨"q", .moveDown, 1, [], ["q"]⟩ ⟨busyFiles, []⟩

/-- The move of the busy unit is prepared. -/
theorem prepared_busyDisk :
    Preparation.make busyDisk smallProject ⟨"lib"⟩ ⟨"q/lib"⟩ = .ok busyPreparation := by
  have hcheck : Preparation.check busyDisk smallProject ⟨"lib"⟩ ⟨"q/lib"⟩
      = .ok (⟨"/lib"⟩, ⟨"/q/lib"⟩, ⟨"q", .moveDown, 1, [], ["q"]⟩) := rfl
  exact Preparation.make_of_found hcheck rfl discover_busyDisk (by decide +kernel)

/-- The edits of the busy move: two in one file, one in the file that travels, a line that a barrel
    loses and a line that a barrel gets. -/
def busyEdits : List Edit :=
  [⟨⟨"/a.ts"⟩, 10, .insert "q/"⟩, ⟨⟨"/a.ts"⟩, 26, .insert "q/"⟩,
    ⟨⟨"/lib/m.ts"⟩, 8, .replace "../a" "../../a"⟩,
    ⟨⟨"/index.ts"⟩, 0, .remove "export * from './lib';\n"⟩,
    ⟨⟨"/q/index.ts"⟩, 19, .insert "\nexport * from './lib';"⟩]

theorem edits_busyPreparation : busyPreparation.plan.edits = busyEdits := by decide +kernel

/-- The plan of the busy move can be carried out: what its edits are made for stands in the files,
    and all files are edited. -/
theorem edits_of_busy_plan_succeed : ∃ pl,
    plan busyDisk smallProject ⟨"lib"⟩ ⟨"q/lib"⟩ = .ok pl ∧ pl.edits = busyEdits ∧
      (∀ e ∈ busyEdits, ∃ s, busyDisk.readText e.target = .ok s ∧
        ∀ b ∈ busyEdits.filter (fun b => b.target.same e.target), b.FitsIn s.toList) ∧
      ∀ o ∈ (applyEdits busyDisk busyEdits).1, o.status = .succeeded := by
  have hplan := Preparation.plan_of_make prepared_busyDisk
  obtain ⟨hdefault, hall⟩ := edits_of_plan_succeed wellFormed_busyDisk hplan
  obtain ⟨hfits, hmade⟩ := hall (hdefault ⟨rfl, rfl⟩)
  rw [edits_busyPreparation] at hfits hmade
  exact ⟨_, hplan, edits_busyPreparation, fun e he => (hfits e he).2.1, hmade⟩

end ModuleMove
