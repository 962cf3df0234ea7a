import ModuleMove.Proofs.Dependents.Seen
import ModuleMove.Proofs.Plan.Movable
import ModuleMove.Proofs.Plan.Renaming
import ModuleMove.Proofs.Plan.Rewritten
import ModuleMove.Proofs.Unit.Back

/-!
# SCANNED FILES — no source file that is seen moves without being scanned

What is renamed is read off the directory of the unit, and what is scanned is what the walk of the
project comes to.  A source file that is renamed and that the walk comes to is one of the travelling
files; since a failure of such a file is fatal, it has been scanned, and each of its relative
references is written anew.  What ignore files or the project's patterns pass over moves as it is.

Main statements:
  * `travels_of_renames` — a source file that is renamed travels.
  * `exists_scanned_of_travelling` — a travelling file has been scanned.
  * `carried_sources_scanned` — which of the renamed files are scanned, and what follows for them.
-/

namespace ModuleMove

open ModuleMove.Path MovedUnit

/-! ## §1. What is renamed travels. -/

/-- What stands behind the components of another path in a straight path are names. -/
theorem Path.Straight.exists_goesOn {base q : Path} {ns : List String} {cs : List Component}
    (hq : q.Straight ns) (hb : base.components ≠ []) (h : q.components = base.components ++ cs) :
    ∃ ks, base.GoesOn q ks ∧ cs = ks.map Component.name := by
  obtain ⟨c, bs, hbase⟩ := List.exists_cons_of_ne_nil hb
  have hnames := h
  rw [hbase, hq.components, List.cons_append] at hnames
  obtain ⟨as, ks, rfl, -, rfl⟩ := List.map_eq_append_iff.1 (List.cons.inj hnames).2
  exact ⟨ks, ⟨fun s hs => hq.1 s (List.mem_append_right _ hs), h⟩, rfl⟩

/-- Nothing lies below a file, so that what is found under the path of one is that file. -/
theorem Disk.components_of_isUnder_file {d : Disk} {base q : Path} {es : List (String × Node)}
    {name : String} {c : Content} {ns : List String} (hd : d.WellFormed)
    (hlist : d.list base = .ok es) (he : (name, .file c) ∈ es) (hq : q.Straight ns)
    (hfile : d.hasFile q = true) (hunder : q.isUnder (base.join ⟨name⟩) = true) :
    q.components = base.components ++ [.name name] := by
  have hname : IsName name := isName_of_mem_list hd hlist he
  have hcomp := components_join_name base hname
  unfold isUnder at hunder
  rw [List.isPrefixOf_iff_prefix] at hunder
  obtain ⟨cs, hcs⟩ := hunder
  obtain ⟨ks, hks, rfl⟩ := hq.exists_goesOn (by rw [hcomp]; simp) hcs.symm
  obtain ⟨as, has⟩ := locate_of_list hlist
  obtain ⟨pl, c', hl⟩ := hasFile_iff.1 hfile
  obtain ⟨-, hfind⟩ := place_of_goesOn has (hks.cons hname) hl
  have hchild := Node.child?_of_mem he (wellFormed_of_locate hd has).1
  change (Node.child? name es).bind _ = _ at hfind
  rw [hchild] at hfind
  obtain rfl : ks = [] := by
    cases ks with
    | nil => rfl
    | cons k ks => cases hfind
  rw [List.map_nil, List.append_nil, hcomp] at hcs
  exact hcs.symm

namespace Preparation

section

variable {d : Disk} {p : Project} {old new q : Path} {x : Preparation} {rs ns : List String}

/-- The unit of a move has a name. -/
theorem name_ne_empty_of_make (h : make d p old new = .ok x) (hs : x.unit.style = .file) :
    x.unit.name ≠ "" := by
  obtain ⟨old', new', δ, hc, hu, -⟩ := make_eq_ok h
  rw [hu] at hs ⊢
  obtain ⟨stem, ext, hname, -⟩ := exists_extension hc hs
  exact (text_nameOf _ _ hname).1

/-- **A source file that is renamed travels**, if no source extension has a dot in it. -/
theorem travels_of_renames (hd : d.WellFormed) (h : make d p old new = .ok x)
    (hdots : x.unit.style = .file → ∀ ext ∈ x.unit.extensions, '.' ∉ ext.toList)
    (hq : q.Straight ns) (hfile : d.hasFile q = true) (hr : Renames x.plan.moves q)
    (hext : ∃ ext, q.extension? = some ext ∧ ext ∈ x.unit.extensions) :
    x.unit.travels q = true := by
  obtain ⟨hmoves, -⟩ := moves_of_make h
  obtain ⟨m, hm, hunder⟩ := hr
  cases hs : x.unit.style with
  | directory =>
    rw [moves_of_directory hs hmoves, List.mem_singleton] at hm
    rw [travels_of_directory hs]
    rw [hm] at hunder
    exact hunder
  | file =>
    obtain ⟨es, hes, hmem⟩ := list_of_make h hs
    obtain ⟨e, he, t, ht, rfl⟩ := (hmem m).1 hm
    obtain ⟨name, n⟩ := e
    obtain ⟨⟨c, rfl⟩, -⟩ := entryName?_eq_some ht
    have hname : IsName name := isName_of_mem_list hd hes he
    -- the renamed entry is a file, so that the path is that of the entry
    have hcomp := Disk.components_of_isUnder_file hd hes he hq hfile hunder
    -- a sibling that no reference is led after has no source extension
    rcases moves_followed hd hmoves (name_ne_empty_of_make h hs) (hdots hs) _ hm with
      hfollowed | ⟨-, -, ext, hsib, hno⟩
    · rw [relocate_join hs hname] at hfollowed
      unfold travels
      rw [relocate_of_components hs hcomp, hfollowed]
      rfl
    · obtain ⟨ext', hext', hin⟩ := hext
      have hsame : q.extension? = (x.unit.oldParent.join ⟨name⟩).extension? := by
        unfold extension?
        rw [fileName?_eq_some_iff.2 ⟨_, hcomp⟩,
          fileName?_eq_some_iff.2 ⟨_, components_join_name _ hname⟩]
      rw [hsame, hsib] at hext'
      exact absurd (Option.some.inj hext' ▸ hin) hno

end

end Preparation

/-! ## §2. What travels is scanned. -/

namespace Index

variable {d : Disk} {u : MovedUnit} {x : Index} {t : Path}

/-- Putting a failure in keeps all that are listed. -/
theorem any_insertFailure (q : Path) (f : Failure) (fs : List (Path × Failure)) :
    (insertFailure q f fs).any (·.1.same t) = (q.same t || fs.any (·.1.same t)) := by
  induction fs with
  | nil => simp [insertFailure]
  | cons g fs ih =>
    obtain ⟨r, g⟩ := g
    unfold insertFailure
    cases hc : q.compare r with
    | lt => rfl
    | gt =>
      simp only [List.any_cons, ih]
      exact Bool.or_left_comm ..
    | eq =>
      -- the failure of the same file is replaced
      have hsame : q.same t = r.same t := by
        have hqr := same_iff.1 (compare_eq_iff.1 hc)
        unfold Path.same
        rw [hqr]
      simp only [List.any_cons, hsame, ← Bool.or_assoc, Bool.or_self]

theorem any_foldl_insertFailure (es fs : List (Path × Failure)) :
    (es.foldl (fun fs e => insertFailure e.1 e.2 fs) fs).any (·.1.same t)
      = (es.any (·.1.same t) || fs.any (·.1.same t)) := by
  induction es generalizing fs with
  | nil => rfl
  | cons e es ih =>
    rw [List.foldl_cons, ih, any_insertFailure, List.any_cons]
    cases e.1.same t <;> simp

/-- The failures of the files that could not be scanned. -/
def badScans (scans : List (Path × Except Failure ScannedFile)) : List (Path × Failure) :=
  scans.filterMap fun
    | (p, .error e) => some (p, e)
    | (_, .ok _) => none

theorem mem_badScans {scans : List (Path × Except Failure ScannedFile)} {f : Path × Failure} :
    f ∈ badScans scans ↔ (f.1, .error f.2) ∈ scans := by
  obtain ⟨q, g⟩ := f
  unfold badScans
  rw [List.mem_filterMap]
  constructor
  · rintro ⟨⟨q', r⟩, hm, hr⟩
    cases r with
    | ok f => cases hr
    | error e =>
      cases hr
      exact hm
  · exact fun hm => ⟨_, hm, rfl⟩

/-- A file without a failure is neither skipped nor one that could not be scanned. -/
theorem failure?_eq_none_iff {skipped : List (Path × Failure)}
    {scans : List (Path × Except Failure ScannedFile)} :
    (ofScans u skipped scans).failure? t = none ↔
      (∀ f ∈ skipped, f.1.same t = false) ∧
        ∀ q g, (q, .error g) ∈ scans → q.same t = false := by
  have hany : (ofScans u skipped scans).failure? t = none ↔
      (ofScans u skipped scans).failures.any (·.1.same t) = false := by
    unfold failure?
    rw [Option.map_eq_none_iff, List.find?_eq_none, List.any_eq_false]
  rw [hany]
  show ((skipped ++ badScans scans).foldl (fun fs e => insertFailure e.1 e.2 fs) []).any _
    = false ↔ _
  rw [any_foldl_insertFailure, List.any_append]
  simp only [List.any_nil, Bool.or_false, Bool.or_eq_false_iff, List.any_eq_false]
  refine and_congr (forall₂_congr fun f _ => Bool.eq_false_iff.symm) ?_
  constructor
  · exact fun h q g hm => Bool.eq_false_iff.2 (h (q, g) (mem_badScans.2 hm))
  · exact fun h f hf => Bool.eq_false_iff.1 (h f.1 f.2 (mem_badScans.1 hf))

/-- A file that could not be scanned has a failure. -/
theorem failure?_of_error {skipped : List (Path × Failure)}
    {scans : List (Path × Except Failure ScannedFile)} {e : Failure} (h : (t, .error e) ∈ scans) :
    (ofScans u skipped scans).failure? t ≠ none := by
  rw [Ne, failure?_eq_none_iff]
  rintro ⟨-, hno⟩
  have := hno t e h
  rw [same_refl] at this
  cases this

end Index

namespace Preparation

section

variable {d : Disk} {p : Project} {old new t : Path} {x : Preparation} {f : ScannedFile}
  {rs ns : List String}

/-- A travelling file of a move that may be made has no failure. -/
theorem failure?_of_travelling (h : make d p old new = .ok x) (ht : t ∈ x.index.travelling) :
    x.index.failure? t = none := by
  obtain ⟨-, -, -, -, -, -, -, -, -, -, hfatal⟩ := make_eq_ok h
  exact List.findSome?_eq_none_iff.1 hfatal t ht

/-- **A travelling file has been scanned.** -/
theorem exists_scanned_of_travelling (h : make d p old new = .ok x)
    (ht : t ∈ x.index.travelling) : ∃ f ∈ x.index.scanned, f.path = t := by
  have hfailure := failure?_of_travelling h ht
  obtain ⟨found, -, hindex⟩ := index_of_make h
  rw [hindex] at ht hfailure ⊢
  obtain ⟨⟨g, hg, rfl⟩, -⟩ := Index.mem_travelling_ofScans.1 ht
  have hscan : (g.1, scanFile d g.1) ∈ Index.scansOf d found.files :=
    List.mem_map.2 ⟨g, hg, rfl⟩
  cases hs : scanFile d g.1 with
  | error e =>
    rw [hs] at hscan
    exact absurd hfailure (Index.failure?_of_error hscan)
  | ok f =>
    rw [hs] at hscan
    obtain ⟨hpath, -⟩ := Index.scanFile_eq_ok hs
    rw [← hpath] at hscan
    exact ⟨f, Index.mem_scanned_ofScans.2 (Index.mem_goodScans.2 hscan), hpath⟩

/-- **A source file that travels is listed exactly if the walk of the project comes to it.** -/
theorem mem_travelling_iff (hd : d.WellFormed) (hroot : p.root.Straight rs)
    (h : make d p old new = .ok x) (ht : t.Straight ns) (htravels : x.unit.travels t = true)
    (hfile : d.hasFile t = true) (hsource : (Discovery.sourceOf? p.config t).isSome = true) :
    t ∈ x.index.travelling ↔ p.sees d t = true := by
  obtain ⟨found, hfound, hindex⟩ := index_of_make h
  obtain ⟨old', new', δ, hc, hu, -⟩ := make_eq_ok h
  obtain ⟨-, -, -, hδ, -⟩ := check_eq_ok hc
  -- what travels lies below the root
  obtain ⟨m, hm⟩ := Option.isSome_iff_exists.1 htravels
  rw [hu] at hm
  have hnamed : (MovedUnit.make d p old' new' δ).style = .file → ∃ s, old'.fileName? = some s := by
    intro hs
    obtain ⟨stem, ext, hname, -⟩ := exists_extension hc hs
    exact ⟨_, hname⟩
  obtain ⟨ks, hks, -⟩ := goesOn_of_relocate hroot.goesOn hδ hnamed ht.goesOn hm
  obtain rfl := ht.eq_append hroot ks hks.2
  rw [hindex, Index.mem_travelling_ofScans, mem_discover_iff hd hroot hfound ht]
  exact ⟨fun h => h.1.2.2, fun h => ⟨⟨hfile, hsource, h⟩, htravels⟩⟩

end

end Preparation

/-! ## §3. What is scanned is written anew. -/

/-- A plan writes a specifier in a file anew, for the place where its target is after the move, seen
    from where the file is then: it has the text already, or an edit gives it. -/
def Plan.Rederives (pl : Plan) (p : Project) (u : MovedUnit) (q g : Path)
    (r : Reference) : Prop :=
  u.rewritten p.root (p.directoryOf q) (p.directoryOf g) r.specifier = r.specifier ∨
    ⟨q, r.span.start, .replace r.specifier
      (u.rewritten p.root (p.directoryOf q) (p.directoryOf g) r.specifier)⟩ ∈ pl.edits

namespace Preparation

/-- **Each relative reference of a travelling file is written anew.** -/
theorem rederives_of_travelling {x : Preparation} {f : ScannedFile} (hx : x.Sound)
    (hf : f ∈ x.index.scanned) (ht : f.path ∈ x.index.travelling) {g : Path}
    (hg : x.unit.relocate f.path = some g) {r : Reference} (hr : r ∈ f.relativeReferences) :
    x.plan.Rederives x.project x.unit f.path g r := by
  cases he : x.ownEdit? f.path (x.project.directoryOf f.path) (x.project.directoryOf g) r with
  | none =>
    exact .inl (ownEdit?_eq_none he)
  | some e =>
    have hown : e ∈ x.ownEdits := by
      refine List.mem_flatMap.2 ⟨_, ht, ?_⟩
      unfold ownEditsOf
      rw [hx.file?_path hf, hg]
      exact List.mem_filterMap.2 ⟨r, hr, he⟩
    obtain ⟨-, rfl, -, rfl⟩ := mem_ownEdit? he
    exact .inr (List.mem_append_left _ (List.mem_append_right _ hown))

end Preparation

/-- **No source file that is seen moves without being scanned**: a file that a plan renames, with a
    source extension of the project, is one of its travelling files exactly if the walk of the
    project comes to it.  It has been scanned then, and each of its relative references is written
    anew unless it needs no other text. -/
theorem carried_sources_scanned {d : Disk} {root : Path} {c : Config} {old new : Path} {pl : Plan}
    (hd : d.WellFormed) (habs : root.isAbsolute = true)
    (h : plan d (.ofRoot root c) old new = .ok pl)
    (hdots : pl.style = .file → ∀ ext ∈ c.extensions, '.' ∉ ext.toList) {q : Path}
    (hq : q.Settled) (hfile : d.hasFile q = true) (hr : Renames pl.moves q)
    (hsource : (Discovery.sourceOf? c q).isSome = true) :
    (q ∈ pl.travelling ↔ (Project.ofRoot root c).sees d q = true) ∧
      (q ∈ pl.travelling → ∃ s f g, d.readText q = .ok s ∧ scan q s = .ok f ∧
        (make d (.ofRoot root c) pl.old pl.new pl.delta).relocate q = some g ∧
        ∀ r ∈ f.relativeReferences, pl.Rederives (.ofRoot root c)
          (make d (.ofRoot root c) pl.old pl.new pl.delta) q g r) := by
  obtain ⟨x, hx, rfl⟩ := Preparation.plan_eq_ok h
  obtain ⟨rs, hroot⟩ := Project.straight_ofRoot habs c
  obtain ⟨ns, hns⟩ := hq.exists_straight
  obtain ⟨-, hproject, hunit⟩ := Preparation.unit_of_make hx
  rw [hunit]
  have hextensions : x.unit.extensions = c.extensions := by
    rw [← hunit]
    rfl
  have hext : ∃ ext, q.extension? = some ext ∧ ext ∈ x.unit.extensions := by
    rw [hextensions]
    obtain ⟨f, hf⟩ := Option.isSome_iff_exists.1 hsource
    unfold Discovery.sourceOf? at hf
    simp only [Option.bind_eq_bind, Option.bind_eq_some_iff] at hf
    obtain ⟨ext, hext, language, -, hf⟩ := hf
    split at hf
    · exact ⟨ext, hext, List.contains_iff_mem.1 ‹_›⟩
    · cases hf
  have htravels := Preparation.travels_of_renames hd hx
    (fun hs => by rw [hextensions]; exact hdots hs) hns hfile hr hext
  refine ⟨Preparation.mem_travelling_iff hd hroot hx hns htravels hfile hsource, fun ht => ?_⟩
  have hsound := Preparation.sound_of_make hd hx
  obtain ⟨f, hf, rfl⟩ := Preparation.exists_scanned_of_travelling hx ht
  obtain ⟨s, hs⟩ := hsound.shows hf
  obtain ⟨g, hg⟩ := Option.isSome_iff_exists.1 htravels
  refine ⟨s, f, g, ?_, hs.scan, hg, fun r hr => ?_⟩
  · have := hs.text
    obtain ⟨rfl, -, -⟩ := Preparation.unit_of_make hx
    exact this
  · have := Preparation.rederives_of_travelling hsound hf ht hg hr
    rwa [hproject] at this

/-! ## §4. What is passed over moves as it is. -/

/-- A disk with a directory that holds two source files, of which one is to be ignored. -/
def siftedDisk : Disk where
  top := .directory [("lib", .directory [(".ignore", .file (.text "gen.ts\n")),
    ("gen.ts", .file (.text "import '../a';\n")),
    ("kept.ts", .file (.text "import '../a';\n"))])]
  here := []

theorem wellFormed_siftedDisk : siftedDisk.WellFormed := by
  refine ⟨?_, _, rfl⟩
  simp only [siftedDisk, Node.WellFormed, Node.AllWellFormed]
  decide

/-- The directory moves as a whole, and one of its files travels. -/
theorem exists_plan_siftedDisk : ∃ pl,
    plan siftedDisk smallProject ⟨"lib"⟩ ⟨"app/lib"⟩ = .ok pl ∧
      (pl.moves, pl.travelling) = ([(⟨"/lib"⟩, ⟨"/app/lib"⟩)], [⟨"/lib/kept.ts"⟩]) :=
  exists_plan_of_map (by decide +kernel)

/-- The file that is not ignored is scanned, and what it refers to is named from its new place. -/
theorem kept_source_scanned : ∃ pl,
    plan siftedDisk smallProject ⟨"lib"⟩ ⟨"app/lib"⟩ = .ok pl ∧
      Renames pl.moves ⟨"/lib/kept.ts"⟩ ∧ ⟨"/lib/kept.ts"⟩ ∈ pl.travelling ∧
      ∃ f g, scan ⟨"/lib/kept.ts"⟩ "import '../a';\n" = .ok f ∧
        ∀ r ∈ f.relativeReferences, pl.Rederives smallProject
          (make siftedDisk smallProject pl.old pl.new pl.delta) ⟨"/lib/kept.ts"⟩ g r := by
  obtain ⟨pl, hpl, heq⟩ := exists_plan_siftedDisk
  obtain ⟨hmoves, -⟩ := Prod.mk.inj heq
  have hr : Renames pl.moves ⟨"/lib/kept.ts"⟩ := by
    rw [hmoves]
    exact ⟨_, List.mem_singleton_self _, by decide +kernel⟩
  obtain ⟨hseen, hscanned⟩ := carried_sources_scanned wellFormed_siftedDisk rfl hpl
    (fun _ => by decide +kernel) (q := ⟨"/lib/kept.ts"⟩) (by decide +kernel) (by decide +kernel)
    hr (by decide +kernel)
  have ht := hseen.2 (by decide +kernel)
  obtain ⟨s, f, g, hs, hf, -, hall⟩ := hscanned ht
  have htext : siftedDisk.readText ⟨"/lib/kept.ts"⟩ = .ok "import '../a';\n" := rfl
  obtain rfl := Except.ok.inj (hs.symm.trans htext)
  exact ⟨pl, hpl, hr, ht, f, g, hf, hall⟩

/-- The file that is ignored is a source file by its name; it is renamed all the same, and it is not
    scanned. -/
theorem ignored_source_unscanned : ∃ pl,
    plan siftedDisk smallProject ⟨"lib"⟩ ⟨"app/lib"⟩ = .ok pl ∧
      Renames pl.moves ⟨"/lib/gen.ts"⟩ ∧ siftedDisk.hasFile ⟨"/lib/gen.ts"⟩ = true ∧
      (Scan.languageOf? ⟨"/lib/gen.ts"⟩).isSome = true ∧ ⟨"/lib/gen.ts"⟩ ∉ pl.travelling := by
  obtain ⟨pl, hpl, heq⟩ := exists_plan_siftedDisk
  obtain ⟨hmoves, htravelling⟩ := Prod.mk.inj heq
  refine ⟨pl, hpl, ?_, by decide +kernel, by decide +kernel, ?_⟩
  · rw [hmoves]
    exact ⟨_, List.mem_singleton_self _, by decide +kernel⟩
  · rw [htravelling]
    decide +kernel

end ModuleMove
