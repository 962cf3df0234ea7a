import ModuleMove.Dependents.Index
import ModuleMove.Proofs.Discover
import ModuleMove.Proofs.Path.Keyed
import ModuleMove.Proofs.Source.Placement

/-!
# THE INDEX OF A PROJECT — what it says is so

The index lists each scanned file once, with what a scan of its text on the disk gives.  It sets
apart the files that travel, and of each other file it keeps the references that name the unit.

Main statements:
  * `Index.sound_of_buildIndex` — the index says of the files on the disk what is so.
-/

namespace ModuleMove

theorem exists_of_bind_eq_ok {ε α β : Type} {a : Except ε α} {f : α → Except ε β} {b : β}
    (h : a >>= f = .ok b) : ∃ r, a = .ok r ∧ f r = .ok b := by
  cases a with
  | error e => cases h
  | ok r => exact ⟨r, rfl, h⟩

theorem eq_ok_of_toOption {ε α : Type} {a : Except ε α} {b : α}
    (h : a.toOption = some b) : a = .ok b := by
  cases a with
  | error e => cases h
  | ok c => exact congrArg Except.ok (Option.some.inj h)

namespace Index

/-- The index says of the files on a disk what is so. -/
structure Sound (d : Disk) (p : Project) (u : MovedUnit) (x : Index) : Prop where
  /-- The root of the project is a directory. -/
  root : ∃ place es, d.locate p.root = .ok (place, .directory es)
  /-- A scanned file is what a scan of its text gives. -/
  scanned : ∀ f ∈ x.scanned, ∃ s, d.readText f.path = .ok s ∧ scan f.path s = .ok f
  /-- It lies below the root of the project, by names. -/
  goesOn : ∀ f ∈ x.scanned, ∃ ns, p.root.GoesOn f.path ns ∧ ns ≠ []
  /-- It is listed once. -/
  distinct : x.scanned.Pairwise fun f g => f.path.same g.path = false
  /-- A file that stays and names the unit is kept with its references that do. -/
  dependents : ∀ q rs, (q, rs) ∈ x.dependents.entries ↔
    rs ≠ [] ∧ ∃ f ∈ x.scanned, f.path = q ∧ rs = naming u f ∧ u.travels f.path = false
  /-- The files that are kept are in order. -/
  ordered : Keyed.Sorted x.dependents.entries
  /-- The travelling files travel. -/
  travels : ∀ t ∈ x.travelling, u.travels t = true
  /-- They lie below the root of the project, by names. -/
  descends : ∀ t ∈ x.travelling, ∃ ns, p.root.GoesOn t ns ∧ ns ≠ []
  /-- Each of them is listed once. -/
  apart : x.travelling.Pairwise fun a b => a.same b = false
  /-- A scanned file is among them exactly if it travels. -/
  mem_travelling : ∀ f ∈ x.scanned, f.path ∈ x.travelling ↔ u.travels f.path = true
  /-- It has the one name that it is found under. -/
  spelled : ∀ t ∈ x.travelling, ∀ f ∈ x.scanned, f.path.same t = true → f.path = t

/-! ## §1. Scans. -/

/-- The files that could be scanned, with their paths. -/
def goodScans (scans : List (Path × Except Failure ScannedFile)) : List (Path × ScannedFile) :=
  scans.filterMap fun (p, r) => r.toOption.map fun f => (p, f)

theorem mem_goodScans {scans : List (Path × Except Failure ScannedFile)} {p : Path}
    {f : ScannedFile} : (p, f) ∈ goodScans scans ↔ (p, .ok f) ∈ scans := by
  unfold goodScans
  rw [List.mem_filterMap]
  constructor
  · rintro ⟨⟨q, r⟩, hm, hr⟩
    cases r with
    | error e => cases hr
    | ok g =>
      cases hr
      exact hm
  · intro hm
    exact ⟨_, hm, rfl⟩

theorem scanFile_eq_ok {parse : Parser} {d : Disk} {p : Path} {f : ScannedFile}
    (h : scanFile d p parse = .ok f) :
    f.path = p ∧ ∃ s, d.readText p = .ok s ∧ scanWith parse p s = .ok f := by
  unfold scanFile at h
  split at h
  · cases h
  · rename_i s hs
    exact ⟨path_of_scan h, s, hs, h⟩

/-- The scans of some files. -/
def scansOf (d : Disk) (files : List (Path × Language)) (parse : Parser := Grammar.parse) :
    List (Path × Except Failure ScannedFile) :=
  files.map fun f => (f.1, scanFile d f.1 parse)

theorem path_of_mem_goodScans {parse : Parser} {d : Disk} {files : List (Path × Language)}
    {p : Path} {f : ScannedFile} (h : (p, f) ∈ goodScans (scansOf d files parse)) : f.path = p ∧
      (∃ s, d.readText p = .ok s ∧ scanWith parse p s = .ok f) ∧ ∃ g ∈ files, g.1 = p := by
  obtain ⟨g, hg, heq⟩ := List.mem_map.1 (mem_goodScans.1 h)
  have hp : g.1 = p := congrArg Prod.fst heq
  have hs : scanFile d g.1 parse = .ok f := congrArg Prod.snd heq
  rw [hp] at hs
  obtain ⟨h1, h2⟩ := scanFile_eq_ok hs
  exact ⟨h1, h2, g, hg, hp⟩

theorem mem_naming {u : MovedUnit} {f : ScannedFile} {r : Reference} :
    r ∈ naming u f ↔
      r ∈ f.references ∧ r.isRelative = true ∧ u.matchesSpecifier r.specifier = true := by
  unfold naming ScannedFile.relativeReferences
  rw [List.mem_filter, List.mem_filter, and_assoc]

/-! ## §2. The index. -/

section

variable {d : Disk} {p : Project} {u : MovedUnit} {x : Index} {found : Discovery}

/-- The files that stay, with their references that name the unit. -/
def stayingItems (u : MovedUnit) (scans : List (Path × Except Failure ScannedFile)) :
    List (Path × List Reference) :=
  ((goodScans scans).filter fun g => !u.travels g.1).map fun g => (g.1, naming u g.2)

theorem entries_ofScans (u : MovedUnit) (skipped : List (Path × Failure))
    (scans : List (Path × Except Failure ScannedFile)) :
    (ofScans u skipped scans).dependents.entries
      = Keyed.collect ((stayingItems u scans).filter fun i => !i.2.isEmpty) := by
  rw [← DependencyMap.entries_foldl_insert, stayingItems, List.foldl_map]
  rfl

/-- The paths of scanned files are those that were found, each once. -/
theorem pairwise_goodScans {files : List (Path × Language)}
    (h : files.Pairwise fun a b => a.1.same b.1 = false) :
    (goodScans (scansOf d files)).Pairwise fun a b => a.1.same b.1 = false := by
  unfold goodScans scansOf
  rw [List.pairwise_filterMap, List.pairwise_map]
  refine h.imp fun {a b} hab f hf g hg => ?_
  obtain ⟨_, -, rfl⟩ := Option.map_eq_some_iff.1 hf
  obtain ⟨_, -, rfl⟩ := Option.map_eq_some_iff.1 hg
  exact hab

theorem mem_scanned_ofScans {parse : Parser} {files : List (Path × Language)}
    {skipped : List (Path × Failure)} {f : ScannedFile} :
    f ∈ (ofScans u skipped (scansOf d files parse)).scanned ↔
      (f.path, f) ∈ goodScans (scansOf d files parse) := by
  show f ∈ (goodScans (scansOf d files parse)).map (·.2) ↔ _
  rw [List.mem_map]
  constructor
  · rintro ⟨⟨q, g⟩, hg, rfl⟩
    rw [(path_of_mem_goodScans hg).1]
    exact hg
  · exact fun h => ⟨_, h, rfl⟩

/-- The files that stay and name the unit are kept, each under its name. -/
theorem mem_entries_ofScans {files : List (Path × Language)}
    (hfiles : files.Pairwise fun a b => a.1.same b.1 = false) (skipped : List (Path × Failure))
    (q : Path) (rs : List Reference) :
    (q, rs) ∈ (ofScans u skipped (scansOf d files)).dependents.entries ↔
      rs ≠ [] ∧ ∃ f ∈ (ofScans u skipped (scansOf d files)).scanned,
        f.path = q ∧ rs = naming u f ∧ u.travels f.path = false := by
  -- files have places of their own, so that each entry is gathered from one of them
  have hitems : ((stayingItems u (scansOf d files)).filter fun i => !i.2.isEmpty).Pairwise
      fun a b => a.1.same b.1 = false := by
    apply List.Pairwise.filter
    unfold stayingItems
    rw [List.pairwise_map]
    exact (pairwise_goodScans hfiles).filter _
  have hempty : (!rs.isEmpty) = true ↔ rs ≠ [] := by simp
  rw [entries_ofScans, Keyed.mem_collect_iff hitems, List.mem_filter, hempty, and_comm]
  apply and_congr_right
  intro _
  unfold stayingItems
  rw [List.mem_map]
  constructor
  · rintro ⟨⟨g, f⟩, hg, heq⟩
    obtain ⟨hg, ht⟩ := List.mem_filter.1 hg
    obtain ⟨rfl, -, -⟩ := path_of_mem_goodScans hg
    cases heq
    exact ⟨f, mem_scanned_ofScans.2 hg, rfl, rfl, by simpa using ht⟩
  · rintro ⟨f, hf, rfl, rfl, ht⟩
    refine ⟨(f.path, f), List.mem_filter.2 ⟨mem_scanned_ofScans.1 hf, ?_⟩, rfl⟩
    simpa using ht

theorem mem_travelling_ofScans {files : List (Path × Language)} {skipped : List (Path × Failure)}
    {t : Path} : t ∈ (ofScans u skipped (scansOf d files)).travelling ↔
      (∃ g ∈ files, g.1 = t) ∧ u.travels t = true := by
  show t ∈ (((scansOf d files).map (·.1)).filter u.travels).mergeSort Path.le ↔ _
  rw [(List.mergeSort_perm _ _).mem_iff, List.mem_filter]
  unfold scansOf
  rw [List.map_map, List.mem_map]
  rfl

/-- If nothing travels, the list of travelling files is empty. -/
theorem ofScans_of_staying {skipped : List (Path × Failure)}
    {scans : List (Path × Except Failure ScannedFile)}
    (h : (scans.map (·.1)).filter u.travels = []) :
    ofScans u skipped scans = { ofScans u skipped scans with travelling := [] } := by
  have htravel : (ofScans u skipped scans).travelling = [] := by
    show ((scans.map (·.1)).filter u.travels).mergeSort Path.le = []
    rw [h, List.mergeSort_nil]
  rw [← htravel]

theorem sound_ofScans (hd : d.WellFormed) (h : discover d p = .ok found) :
    (ofScans u found.skipped (scansOf d found.files)).Sound d p u := by
  have hfiles := pairwise_discover hd h
  have hscanned : ∀ f ∈ (ofScans u found.skipped (scansOf d found.files)).scanned,
      (∃ s, d.readText f.path = .ok s ∧ scan f.path s = .ok f) ∧
        ∃ g ∈ found.files, g.1 = f.path := by
    intro f hf
    obtain ⟨-, h1, h2⟩ := path_of_mem_goodScans (mem_scanned_ofScans.1 hf)
    exact ⟨h1, h2⟩
  constructor
  · exact locate_root_of_discover h
  · exact fun f hf => (hscanned f hf).1
  · intro f hf
    obtain ⟨-, g, hg, hp⟩ := hscanned f hf
    rw [← hp]
    exact goesOn_of_discover hd h g hg
  · show ((goodScans (scansOf d found.files)).map (·.2)).Pairwise _
    rw [List.pairwise_map]
    refine (pairwise_goodScans hfiles).imp_of_mem fun {a b} ha hb hab => ?_
    rw [(path_of_mem_goodScans ha).1, (path_of_mem_goodScans hb).1]
    exact hab
  · exact mem_entries_ofScans hfiles found.skipped
  · rw [entries_ofScans]
    exact Keyed.sorted_collect _
  · exact fun t ht => (mem_travelling_ofScans.1 ht).2
  · intro t ht
    obtain ⟨⟨g, hg, rfl⟩, -⟩ := mem_travelling_ofScans.1 ht
    exact goesOn_of_discover hd h g hg
  · show ((((scansOf d found.files).map (·.1)).filter u.travels).mergeSort Path.le).Pairwise _
    -- what travels is put in order, and that keeps places apart
    refine (List.mergeSort_perm _ _).symm.pairwise (List.Pairwise.filter _ ?_) fun {a b} hab => ?_
    · unfold scansOf
      rw [List.map_map, List.pairwise_map]
      exact hfiles
    · rw [Bool.eq_false_iff] at hab ⊢
      exact fun hs => hab (Path.same_symm hs)
  · intro f hf
    rw [mem_travelling_ofScans]
    obtain ⟨-, hg⟩ := hscanned f hf
    exact and_iff_right hg
  · intro t ht f hf hs
    obtain ⟨g, hg, rfl⟩ := (mem_travelling_ofScans.1 ht).1
    obtain ⟨-, g', hg', hp⟩ := hscanned f hf
    rw [← hp] at hs ⊢
    rw [Path.eq_of_same Prod.fst hfiles hg' hg hs]

end

/-- **The index of a project says what is so.** -/
theorem sound_of_buildIndex {d : Disk} {p : Project} {u : MovedUnit} {x : Index}
    (hd : d.WellFormed) (h : buildIndex d p u = .ok x) : x.Sound d p u := by
  unfold buildIndex at h
  obtain ⟨found, hf, h⟩ := exists_of_bind_eq_ok h
  obtain rfl := Except.ok.inj h
  exact sound_ofScans hd hf

end Index

end ModuleMove
