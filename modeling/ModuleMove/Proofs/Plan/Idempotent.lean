import ModuleMove.Proofs.Plan.Again
import ModuleMove.Proofs.Plan.BarrelEdits

/-!
# BARRELS TWICE — barrels that have been edited for a move need no edits for it

The edits of the barrels of a move take away each export that leads into the unit, and put in one
line if no export leads to where the unit goes.  When the move is prepared again on the edited disk,
the same barrels are looked at.  What has been taken away is not there any more, and the line that
has been put in leads to where the unit goes.

Main statements:
  * `Preparation.exists_sayings` — what a file says when it is scanned again.
  * `aggregators_idempotent` — no edit of a barrel is left to be made.
  * `aggregators_repeat` — an absolute path as the name of a barrel leaves one.
-/

namespace ModuleMove

open ModuleMove.Path

namespace Preparation

section

variable {x : Preparation} {f : ScannedFile} {r : Reference}

/-! ## §1. What a file says afterwards. -/

/-- What the line says that exports the unit from a barrel. -/
def unitExport (x : Preparation) : String × ReferenceKind × List String :=
  (Specifier.relative x.unit.newParent x.unit.newModule, .exports, ["*"])

/-- What is meant to be said in a file when the barrels have been edited: what has not been taken
    out, and for each line that has been put in, that it exports the unit. -/
def sayings (x : Preparation) (f : ScannedFile) : List (String × ReferenceKind × List String) :=
  (f.references.filter fun r => !x.onRemoved f.path r).map Reference.saying ++
    (x.barrelEdits.edits.filter fun e => e.isInsert && e.target.same f.path).map
      fun _ => x.unitExport

/-- The barrels that have been edited say what they are meant to say, if they can still be
    scanned. -/
def Rereads (x : Preparation) (e : Disk) : Prop :=
  ∀ f ∈ x.index.scanned, (∃ b ∈ x.barrelEdits.edits, b.target.same f.path = true) →
    ∀ g, scanFile e f.path = .ok g → (g.references.map Reference.saying).Perm (x.sayings f)

/-- A file that is not edited is meant to say what it says. -/
theorem sayings_of_unedited (hno : ∀ e ∈ x.barrelEdits.edits, e.target.same f.path = false) :
    x.sayings f = f.references.map Reference.saying := by
  have hkept : f.references.filter (fun r => !x.onRemoved f.path r) = f.references := by
    rw [List.filter_eq_self]
    intro r _
    have hnot : x.onRemoved f.path r = false := by
      unfold onRemoved
      rw [List.any_eq_false]
      intro e he
      rw [hno e he]
      simp
    rw [hnot]
    rfl
  have hnone : x.barrelEdits.edits.filter (fun e => e.isInsert && e.target.same f.path) = [] := by
    rw [List.filter_eq_nil_iff]
    intro e he
    rw [hno e he]
    simp
  unfold sayings
  rw [hkept, hnone, List.map_nil, List.append_nil]

theorem mem_sayings_of_kept (hr : r ∈ f.references) (hkept : x.onRemoved f.path r = false) :
    r.saying ∈ x.sayings f := by
  refine List.mem_append_left _ (List.mem_map_of_mem (List.mem_filter.2 ⟨hr, ?_⟩))
  rw [hkept]
  rfl

theorem mem_sayings_of_insert {e : Edit} (he : e ∈ x.barrelEdits.edits) (hi : e.isInsert = true)
    (hsame : e.target.same f.path = true) : x.unitExport ∈ x.sayings f := by
  refine List.mem_append_right _ (List.mem_map.2 ⟨e, List.mem_filter.2 ⟨he, ?_⟩, rfl⟩)
  rw [hi, hsame]
  rfl

theorem mem_sayings {w : String × ReferenceKind × List String} (h : w ∈ x.sayings f) :
    (∃ r ∈ f.references, x.onRemoved f.path r = false ∧ r.saying = w) ∨
      ∃ e ∈ x.barrelEdits.edits, e.isInsert = true ∧ e.target.same f.path = true := by
  rcases List.mem_append.1 h with h | h
  · obtain ⟨r, hr, rfl⟩ := List.mem_map.1 h
    obtain ⟨hr, hkept⟩ := List.mem_filter.1 hr
    exact .inl ⟨r, hr, by simpa using hkept, rfl⟩
  · obtain ⟨e, he, -⟩ := List.mem_map.1 h
    obtain ⟨he, hboth⟩ := List.mem_filter.1 he
    exact .inr ⟨e, he, by simpa using hboth⟩

end

/-! ## §2. Barrels that are edited twice. -/

section

variable {d : Disk} {p : Project} {old new : Path} {x y : Preparation} {g : ScannedFile}
  {rs : List String}

/-- **What a file says when it is scanned again**: it has been scanned before, and says what it is
    meant to say. -/
theorem exists_sayings (hd : d.WellFormed) (hroot : p.root.Straight rs)
    (hx : make d p old new = .ok x) (hreads : x.Rereads (applyEdits d x.barrelEdits.edits).2)
    (hy : make (applyEdits d x.barrelEdits.edits).2 p old new = .ok y)
    (hg : g ∈ y.index.scanned) : ∃ f s, x.Shows f s ∧ f.path = g.path ∧
      (g.references.map Reference.saying).Perm (x.sayings f) := by
  have hsound := sound_of_make hd hx
  have hmakes := hsound.makes_barrelEdits
  obtain ⟨he, hreworded⟩ := hmakes.reworded hd hx
  obtain ⟨found, hfound, -⟩ := index_of_make hx
  obtain ⟨found', hfound', -, hfiles⟩ := exists_discover_of_reworded hreworded hd he hroot hfound
  obtain ⟨⟨l, hl, hlg⟩, hscan⟩ := (mem_scanned_of_make hy hfound').1 hg
  have hl := (hfiles l).1 hl
  obtain ⟨rfl, rfl, -⟩ := unit_of_make hx
  by_cases hedited : ∃ b ∈ x.barrelEdits.edits, b.target.same g.path = true
  · -- the file that has been edited has been found under one path
    obtain ⟨b, hb, hsame⟩ := hedited
    obtain ⟨f, s, hf⟩ := hmakes.placed b hb
    obtain ⟨⟨k, hk, hkf⟩, -⟩ := (mem_scanned_of_make hx hfound).1 hf.shows.mem
    have hpath : f.path = g.path := by
      have hfg : k.1.same l.1 = true := by
        rw [hkf, hlg]
        exact same_trans hf.same hsame
      rw [← hkf, ← hlg, Path.eq_of_same Prod.fst (pairwise_discover hd hfound) hk hl hfg]
    refine ⟨f, s, hf.shows, hpath, hreads f hf.shows.mem ⟨b, hb, ?_⟩ g ?_⟩
    · rw [hpath]
      exact hsame
    · rw [hpath]
      exact hscan
  · have hno : ∀ e ∈ x.barrelEdits.edits, e.target.same g.path = false := fun e he =>
      Bool.eq_false_iff.2 fun hsame => hedited ⟨e, he, hsame⟩
    obtain ⟨ns, hns, -⟩ := goesOn_of_discover hd hfound l hl
    rw [hlg] at hns
    have hread := hmakes.readText_of_unedited hsound hns hno
    have hscan' : scanFile x.disk g.path = .ok g := by
      unfold scanFile at hscan ⊢
      rwa [hread] at hscan
    have hmem := (mem_scanned_of_make hx hfound).2 ⟨⟨l, hl, hlg⟩, hscan'⟩
    obtain ⟨s, hs⟩ := hsound.shows hmem
    refine ⟨g, s, hs, rfl, ?_⟩
    rw [sayings_of_unedited hno]

/-- **The line that is put in leads to the unit**, if the barrel is a file of the directory that the
    unit enters, and not one that an absolute path names. -/
theorem leadsToUnit_relative (hd : d.WellFormed) (hroot : p.root.Straight rs)
    (hnames : ∀ n ∈ p.config.barrelNames, isAbsolute ⟨n⟩ = false)
    (hx : make d p old new = .ok x) (h1 : x.unit.newName ≠ ".") (h2 : x.unit.newName ≠ "..")
    {b : Path} (hb : findBarrel d p x.unit.newParent = some b) {f : ScannedFile}
    (hf : f ∈ x.index.scanned) (hsame : f.path.same b = true) :
    x.leadsToUnit (Specifier.relative x.unit.newParent x.unit.newModule) = true := by
  have hname := isName_newName_of_make hd hroot hx h1 h2
  obtain ⟨found, hfound, -⟩ := index_of_make hx
  obtain ⟨⟨g, hg, hgf⟩, -⟩ := (mem_scanned_of_make hx hfound).1 hf
  obtain ⟨ns, hns⟩ := straight_of_discover hd hroot hfound g hg
  obtain ⟨-, rfl, -⟩ := unit_of_make hx
  obtain ⟨n, hn, ext, -, rfl, -⟩ := findBarrel_eq_some hb
  have hrel : isAbsolute ⟨n ++ "." ++ ext⟩ = false := by
    have hno := hnames n hn
    unfold isAbsolute at hno ⊢
    simp only [String.toList_append] at hno ⊢
    cases hn : n.toList with
    | nil => rfl
    | cons c cs =>
      rw [hn] at hno
      exact hno
  -- the directory has no detours, since the way to its barrel has none
  obtain ⟨ps, hps⟩ : ∃ ps, top.GoesOn x.unit.newParent ps := by
    rw [← hgf, same_iff, hns.components] at hsame
    have hne : x.unit.newParent.text ≠ "" := by
      intro h0
      have hjoin : x.unit.newParent.join ⟨n ++ "." ++ ext⟩ = ⟨n ++ "." ++ ext⟩ := by
        unfold join
        rw [if_neg (by rw [hrel]; decide), h0]
        rfl
      rw [hjoin] at hsame
      rw [isAbsolute_iff_components.2 ⟨_, hsame.symm⟩] at hrel
      cases hrel
    rw [components_join hne hrel] at hsame
    obtain ⟨c, cs, hcs⟩ := List.exists_cons_of_ne_nil (mt components_eq_nil_iff.1 hne)
    rw [hcs, List.cons_append] at hsame
    obtain ⟨rfl, hrest⟩ := List.cons.inj hsame
    obtain ⟨ps, ks, rfl, rfl, -⟩ := List.map_eq_append_iff.1 hrest
    exact ⟨ps, fun t ht => hns.1 t (List.mem_append_left _ ht), hcs⟩
  have hmodule : top.GoesOn x.unit.newModule (ps ++ [x.unit.newName]) := by
    refine ⟨List.forall_mem_append.2 ⟨hps.1, List.forall_mem_singleton.2 hname⟩, ?_⟩
    unfold MovedUnit.newModule
    rw [components_join_name _ hname, hps.2, List.map_append, List.append_assoc]
    rfl
  have hresolve := Specifier.resolve_relative hps hmodule hroot.goesOn.text_ne_empty
  unfold leadsToUnit
  rw [Bool.or_eq_true]
  exact .inl (sameModule_of_same hresolve _)

/-- What is known when a move is prepared for the second time: the unit and the barrels are those
    of the first time, and files say what they were meant to say. -/
structure Again (x y : Preparation) : Prop where
  /-- What was known the first time. -/
  first : x.Sound
  /-- What is known now. -/
  second : y.Sound
  /-- The unit is the same. -/
  unit : y.unit = x.unit
  /-- The project is the same. -/
  project : y.project = x.project
  /-- The barrels are the same. -/
  barrel : ∀ dir, findBarrel y.disk y.project dir = findBarrel x.disk x.project dir
  /-- Each file has been scanned before, and says what it was meant to say. -/
  saying : ∀ g ∈ y.index.scanned, ∃ f s, x.Shows f s ∧ f.path = g.path ∧
    (g.references.map Reference.saying).Perm (x.sayings f)

theorem again_of_make (hd : d.WellFormed) (hroot : p.root.Straight rs)
    (hx : make d p old new = .ok x) (hreads : x.Rereads (applyEdits d x.barrelEdits.edits).2)
    (hy : make (applyEdits d x.barrelEdits.edits).2 p old new = .ok y) (hunit : y.unit = x.unit) :
    Again x y := by
  have hsound := sound_of_make hd hx
  obtain ⟨he, hreworded⟩ := hsound.makes_barrelEdits.reworded hd hx
  obtain ⟨hdisk, hproject, -⟩ := unit_of_make hx
  obtain ⟨hydisk, hyproject, -⟩ := unit_of_make hy
  refine ⟨hsound, sound_of_make he hy, hunit, hyproject.trans hproject.symm, fun dir => ?_,
    fun g hg => exists_sayings hd hroot hx hreads hy hg⟩
  rw [hydisk, hyproject, hdisk, hproject, findBarrel_of_sameShape hreworded.shape]

theorem Again.twoBarrels (h : Again x y) (htwo : y.TwoBarrels) : x.TwoBarrels := by
  intro a b ha hb
  rw [← h.unit, ← h.barrel] at ha hb
  exact htwo a b ha hb

/-- Nothing is left to be taken out of the barrel that the unit leaves. -/
theorem Again.not_mem_removals (h : Again x y) (htwo : x.TwoBarrels) {a : Path}
    (ha : findBarrel x.disk x.project x.unit.oldParent = some a) (e : Edit) :
    e ∉ (y.removals a).edits := by
  intro hrem
  obtain ⟨g, t, r, hg, hr, hk, htarget, -, -, -, hrelative, htravels⟩ := h.second.removal hrem
  obtain ⟨f, s, hf, hpath, hperm⟩ := h.saying g hg.shows.mem
  rw [h.unit, h.project] at htravels
  have hfa : f.path.same a = true := by
    rw [hpath, ← htarget]
    exact hg.same
  rcases mem_sayings (hperm.mem_iff.1 (List.mem_map_of_mem hr)) with
    ⟨r', hr', hkept, hsaying⟩ | ⟨e', he', hi, hsame⟩
  · -- the export has been there before, and has been taken out
    obtain ⟨hspec, hsaying⟩ := Prod.ext_iff.1 hsaying
    obtain ⟨hkind, -⟩ := Prod.ext_iff.1 hsaying
    have hspec : r'.specifier = r.specifier := hspec
    have hremoved := h.first.onRemoved_of_travels htwo ha hf hfa hr'
      (show r'.kind = _ from hkind.trans hk)
      (by unfold Reference.isRelative; rw [hspec]; exact hrelative)
      (by unfold targetOf; rw [hspec]; exact htravels)
    rw [hremoved] at hkept
    cases hkept
  · -- a line is put into the other barrel
    obtain ⟨-, -, -, hnew, -⟩ := exists_line he' hi
    have hno := htwo a e'.target ha hnew
    rw [same_trans (same_symm hfa) (same_symm hsame)] at hno
    cases hno

/-- The barrel that the unit enters is meant to export it, as of old or by the line that is put
    in. -/
theorem Sound.exists_unit_saying (hsound : x.Sound) (htwo : x.TwoBarrels) {b : Path}
    (hb : findBarrel x.disk x.project x.unit.newParent = some b) {f : ScannedFile} {s : String}
    (hf : x.Shows f s) (hfb : f.path.same b = true)
    (hleads : x.leadsToUnit (Specifier.relative x.unit.newParent x.unit.newModule) = true) :
    ∃ w ∈ x.sayings f, w.2.1 = .exports ∧ isRelativeSpecifier w.1 = true ∧
      x.leadsToUnit w.1 = true := by
  obtain ⟨-, -, -, -, -, hfile⟩ := findBarrel_eq_some hb
  cases hold : x.exportsUnit ⟨b, s.toList, f.exports.filter (·.isRelative),
      largest? ((f.exportStatements ++ f.exports.map (·.statement)).map (·.stop))⟩ with
  | true =>
    obtain ⟨w, hw, hsays⟩ := exportsUnit_iff.1 hold
    obtain ⟨r, hr, rfl⟩ := List.mem_map.1 hw
    exact ⟨_, mem_sayings_of_kept hr (hsound.not_onRemoved htwo hb hfb r), hsays⟩
  | false =>
    obtain ⟨e, hput⟩ : ∃ e, e ∈ (x.insertion b).edits := by
      rw [insertion_of_not_exportsUnit (hsound.barrelAt_of_shows hf hfb hfile) hold]
      exact ⟨_, List.mem_singleton_self _⟩
    have hedit := mem_barrelEdits_iff.2 ⟨htwo, .inr ⟨b, hb, hput⟩⟩
    obtain ⟨-, -, -, htarget, hi, -⟩ := hsound.insertion hput
    refine ⟨x.unitExport, mem_sayings_of_insert hedit hi ?_, rfl,
      isRelativeSpecifier_relative _ _, hleads⟩
    rw [htarget]
    exact same_symm hfb

/-- No line is left to be put into the barrel that the unit enters. -/
theorem Again.not_mem_insertion (h : Again x y) (htwo : x.TwoBarrels) {b : Path}
    (hb : findBarrel x.disk x.project x.unit.newParent = some b)
    (hleads : ∀ f ∈ x.index.scanned, f.path.same b = true →
      x.leadsToUnit (Specifier.relative x.unit.newParent x.unit.newModule) = true) (e : Edit) :
    e ∉ (y.insertion b).edits := by
  intro hins
  obtain ⟨g, t, hg, htarget, -⟩ := h.second.insertion hins
  obtain ⟨f, s, hf, hpath, hperm⟩ := h.saying g hg.shows.mem
  have hgb : g.path.same b = true := by
    rw [← htarget]
    exact hg.same
  have hfb : f.path.same b = true := by
    rw [hpath]
    exact hgb
  obtain ⟨w, hw, hk, hrelative, hw'⟩ :=
    h.first.exists_unit_saying htwo hb hf hfb (hleads f hf.mem hfb)
  rw [← h.barrel] at hb
  obtain ⟨-, -, -, -, -, hyfile⟩ := findBarrel_eq_some hb
  have hagain : y.exportsUnit ⟨b, t.toList, g.exports.filter (·.isRelative),
      largest? ((g.exportStatements ++ g.exports.map (·.statement)).map (·.stop))⟩ = true ↔ _ :=
    exportsUnit_iff
  have hy' : y.leadsToUnit w.1 = true := by
    unfold leadsToUnit at hw' ⊢
    rw [h.unit, h.project]
    exact hw'
  have hnone := insertion_of_exportsUnit (h.second.barrelAt_of_shows hg.shows hgb hyfile)
    (hagain.2 ⟨w, hperm.mem_iff.2 hw, hk, hrelative, hy'⟩)
  rw [hnone] at hins
  cases hins

/-- **No edit of a barrel is left to be made.** -/
theorem barrelEdits_again (hd : d.WellFormed) (hroot : p.root.Straight rs)
    (hnames : ∀ n ∈ p.config.barrelNames, isAbsolute ⟨n⟩ = false)
    (hx : make d p old new = .ok x) (h1 : x.unit.newName ≠ ".") (h2 : x.unit.newName ≠ "..")
    (hreads : x.Rereads (applyEdits d x.barrelEdits.edits).2)
    (hy : make (applyEdits d x.barrelEdits.edits).2 p old new = .ok y) (hunit : y.unit = x.unit) :
    y.barrelEdits.edits = [] := by
  have h := again_of_make hd hroot hx hreads hy hunit
  obtain ⟨hdisk, hproject, -⟩ := unit_of_make hx
  refine List.eq_nil_iff_forall_not_mem.2 fun e hmem => ?_
  obtain ⟨htwo, hor⟩ := mem_barrelEdits_iff.1 hmem
  have htwo := h.twoBarrels htwo
  rcases hor with ⟨a, ha, hrem⟩ | ⟨b, hb, hins⟩
  · rw [h.barrel, h.unit] at ha
    exact h.not_mem_removals htwo ha e hrem
  · rw [h.barrel, h.unit] at hb
    refine h.not_mem_insertion htwo hb (fun f hf hfb => ?_) e hins
    rw [hdisk, hproject] at hb
    exact leadsToUnit_relative hd hroot hnames hx h1 h2 hb hf hfb

end

end Preparation

/-- **Barrels that have been edited for a move need no edits for it.**  If no barrel is named by an
    absolute path, the edits of the barrels can all be made, and then none is left to be made. -/
theorem aggregators_idempotent {d : Disk} {root : Path} {c : Config} {old new : Path}
    {x : Preparation} {set : EditSet} (hd : d.WellFormed) (habs : root.isAbsolute = true)
    (hnames : ∀ n ∈ c.barrelNames, isAbsolute ⟨n⟩ = false)
    (hx : Preparation.make d (.ofRoot root c) old new = .ok x)
    (h1 : x.unit.newName ≠ ".") (h2 : x.unit.newName ≠ "..") (hstay : x.BarrelsStay)
    (h : resolveAggregators d (.ofRoot root c) old new = .ok set)
    (hreads : x.Rereads (applyEdits d set.edits).2) :
    (∀ o ∈ (applyEdits d set.edits).1, o.status = .succeeded) ∧
      ∃ set', resolveAggregators (applyEdits d set.edits).2 (.ofRoot root c) old new = .ok set' ∧
        set'.edits = [] := by
  obtain ⟨rs, hroot⟩ := Project.straight_ofRoot habs c
  have hset : set.edits = x.barrelEdits.edits := by
    unfold resolveAggregators at h
    rw [hx] at h
    rw [← Except.ok.inj h]
  rw [hset] at hreads ⊢
  have hsound := Preparation.sound_of_make hd hx
  have hmakes := hsound.makes_barrelEdits
  obtain ⟨he, hreworded⟩ := hmakes.reworded hd hx
  obtain ⟨hdisk, -, -⟩ := Preparation.unit_of_make hx
  have hkept : ∀ t ∈ x.index.travelling,
      (applyEdits d x.barrelEdits.edits).2.readText t = d.readText t := by
    intro t ht
    obtain ⟨ns, hns, -⟩ := hsound.index.descends t ht
    rw [← hdisk]
    refine hmakes.readText_of_unedited hsound hns fun e he => ?_
    rw [Bool.eq_false_iff]
    intro hs
    have := hsound.not_same_barrel hstay he ht
    rw [same_symm hs] at this
    cases this
  obtain ⟨y, hy, hunit⟩ :=
    Preparation.exists_make_of_reworded hreworded hd he hroot hx hkept
  refine ⟨?_, ⟨y.barrelEdits.edits, y.index.skipWarnings ++ y.barrelEdits.warnings⟩, ?_,
    Preparation.barrelEdits_again hd hroot hnames hx h1 h2 hreads hy hunit⟩
  · rw [← hdisk]
    exact hmakes.outcomes hsound
  · unfold resolveAggregators
    rw [hy]
    rfl

/-! ## §3. Two disks with barrels. -/

/-- A disk with a directory, a barrel that exports it, and an empty barrel where it goes. -/
def shownDisk : Disk where
  top := .directory [("index.ts", .file (.text "export * from './lib';\n")), ("lib", .directory []),
    ("q", .directory [("index.ts", .file (.text ""))])]
  here := []

theorem wellFormed_shownDisk : shownDisk.WellFormed := by
  refine ⟨?_, _, rfl⟩
  simp only [shownDisk, Node.WellFormed, Node.AllWellFormed]
  decide

/-- The barrels of the disk. -/
def shownFiles : List (Path × Language) :=
  [(⟨"/index.ts"⟩, .typeScript), (⟨"/q/index.ts"⟩, .typeScript)]

theorem discover_shownDisk : discover shownDisk smallProject = .ok ⟨shownFiles, []⟩ :=
  discover_smallProject rfl (by decide +kernel) (by decide +kernel)

/-- What is known when the directory is moved. -/
def shownPreparation : Preparation :=
  .ofStaying shownDisk smallProject smallUnit ⟨"q", .moveDown, 1, [], ["q"]⟩ ⟨shownFiles, []⟩

theorem prepared_shownDisk :
    Preparation.make shownDisk smallProject ⟨"lib"⟩ ⟨"q/lib"⟩ = .ok shownPreparation := by
  have hcheck : Preparation.check shownDisk smallProject ⟨"lib"⟩ ⟨"q/lib"⟩
      = .ok (⟨"/lib"⟩, ⟨"/q/lib"⟩, ⟨"q", .moveDown, 1, [], ["q"]⟩) := rfl
  exact Preparation.make_of_staying hcheck rfl discover_shownDisk (by decide +kernel)

/-- The edits of the barrels of the disk. -/
def shownEdits : List Edit :=
  [⟨⟨"/index.ts"⟩, 0, .remove "export * from './lib';\n"⟩,
    ⟨⟨"/q/index.ts"⟩, 0, .insert "export * from './lib';\n"⟩]

theorem barrelEdits_shownPreparation : shownPreparation.barrelEdits.edits = shownEdits := by
  decide +kernel

/-- What a file says that is scanned is told by evaluation. -/
theorem Preparation.rereads_of_all {x : Preparation} {e : Disk}
    (h : x.index.scanned.all (fun f => (scanFile e f.path).toOption.all fun g =>
      decide ((g.references.map Reference.saying).Perm (x.sayings f))) = true) : x.Rereads e := by
  intro f hf _ g hg
  have := List.all_eq_true.1 h f hf
  rw [hg] at this
  exact of_decide_eq_true this

/-- One barrel loses its line, the other one gets it, and then nothing is left to be done. -/
theorem shown_aggregators_idempotent : ∃ set,
    resolveAggregators shownDisk smallProject ⟨"lib"⟩ ⟨"q/lib"⟩ = .ok set ∧
      set.edits = shownEdits ∧ ∃ set', resolveAggregators (applyEdits shownDisk shownEdits).2
        smallProject ⟨"lib"⟩ ⟨"q/lib"⟩ = .ok set' ∧ set'.edits = [] := by
  have hset : resolveAggregators shownDisk smallProject ⟨"lib"⟩ ⟨"q/lib"⟩
      = .ok ⟨shownPreparation.barrelEdits.edits,
        shownPreparation.index.skipWarnings ++ shownPreparation.barrelEdits.warnings⟩ := by
    unfold resolveAggregators
    rw [prepared_shownDisk]
    rfl
  have hstay : shownPreparation.BarrelsStay :=
    Preparation.barrelsStay_of_default wellFormed_shownDisk (Project.normal_root_ofRoot _ _)
      ⟨rfl, rfl⟩ prepared_shownDisk
  have hreads : shownPreparation.Rereads (applyEdits shownDisk shownEdits).2 :=
    Preparation.rereads_of_all (by decide +kernel)
  obtain ⟨-, set', hset', hnone⟩ := aggregators_idempotent
    wellFormed_shownDisk rfl (by decide) prepared_shownDisk (by decide) (by decide) hstay hset
    (by rw [barrelEdits_shownPreparation]; exact hreads)
  rw [barrelEdits_shownPreparation] at hset'
  exact ⟨_, hset, barrelEdits_shownPreparation, set', hset', hnone⟩

/-- A disk with a file that is also found with a detour, and with a barrel that an absolute path
    names. -/
def detourDisk : Disk where
  top := .directory [("foo.ts", .file (.text "")), ("index.ts", .file (.text "")),
    ("lib", .directory [("main.ts", .file (.text ""))]), ("x.d", .directory [])]
  here := []

/-- One extension goes on with a detour, and one name of barrels is an absolute path. -/
def detourConfig : Config :=
  { Config.default with
    extensions := ["ts", "d/../foo.ts"], barrelNames := ["index", "/lib/main"],
    excludes := ["foo.ts", "/index.ts"] }

/-- All of the disk, with that configuration. -/
def detourProject : Project := .ofRoot ⟨"/"⟩ detourConfig

/-- The edit of its barrel. -/
def detourEdits : List Edit := [⟨⟨"/lib/main.ts"⟩, 0, .insert "export * from './foo';\n"⟩]

/-- **A barrel that an absolute path names gets a second line** for a unit whose directory is
    written with a detour: the line that is there leads to the directory without the detour. -/
theorem aggregators_repeat : ∃ x set set',
    Preparation.make detourDisk detourProject ⟨"x"⟩ ⟨"lib/y"⟩ = .ok x ∧ x.unit.newName = "foo" ∧
      x.BarrelsStay ∧ resolveAggregators detourDisk detourProject ⟨"x"⟩ ⟨"lib/y"⟩ = .ok set ∧
      (∀ o ∈ (applyEdits detourDisk set.edits).1, o.status = .succeeded) ∧
      x.Rereads (applyEdits detourDisk set.edits).2 ∧
      resolveAggregators (applyEdits detourDisk set.edits).2 detourProject ⟨"x"⟩ ⟨"lib/y"⟩
        = .ok set' ∧
      set'.edits = [⟨⟨"/lib/main.ts"⟩, 22, .insert "\nexport * from './foo';"⟩] := by
  have hfirst : (Preparation.make detourDisk detourProject ⟨"x"⟩ ⟨"lib/y"⟩).toOption.map
      (fun x => (x.unit.newName, x.index.travelling, x.barrelEdits.edits,
        x.index.scanned.all fun f =>
          (scanFile (applyEdits detourDisk detourEdits).2 f.path).toOption.all fun g =>
            decide ((g.references.map Reference.saying).Perm (x.sayings f))))
      = some ("foo", [], detourEdits, true) := by decide +kernel
  have hsecond : (resolveAggregators (applyEdits detourDisk detourEdits).2 detourProject ⟨"x"⟩
      ⟨"lib/y"⟩).toOption.map (·.edits)
      = some [⟨⟨"/lib/main.ts"⟩, 22, .insert "\nexport * from './foo';"⟩] := by decide +kernel
  have hmade : ∀ o ∈ (applyEdits detourDisk detourEdits).1, o.status = .succeeded := by
    decide +kernel
  obtain ⟨x, hx, hall⟩ := Option.map_eq_some_iff.1 hfirst
  obtain ⟨set', hset', hagain⟩ := Option.map_eq_some_iff.1 hsecond
  obtain ⟨hname, hall⟩ := Prod.ext_iff.1 hall
  obtain ⟨htravelling, hall⟩ := Prod.ext_iff.1 hall
  obtain ⟨hedits, hreads⟩ := Prod.ext_iff.1 hall
  have htravelling : x.index.travelling = [] := htravelling
  have hedits : x.barrelEdits.edits = detourEdits := hedits
  have hx := eq_ok_of_toOption hx
  refine ⟨x, ⟨detourEdits, x.index.skipWarnings ++ x.barrelEdits.warnings⟩, set', hx, hname, ?_, ?_,
    hmade, Preparation.rereads_of_all hreads, eq_ok_of_toOption hset', hagain⟩
  · intro b _ t ht
    rw [htravelling] at ht
    cases ht
  · unfold resolveAggregators
    rw [hx, ← hedits]
    rfl

end ModuleMove
