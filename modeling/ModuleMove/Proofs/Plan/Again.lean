import ModuleMove.Proofs.Dependents.Reworded
import ModuleMove.Proofs.Plan.Scanned

/-!
# PREPARING AGAIN — a move is prepared as before when texts of sources have changed

What a move is checked against is the shape of the disk: what is where, and what is a directory.  So
when only texts of source files are others, the same unit is moved in the same way, and the same
files are looked at.  The files that travel have to be the same ones with the same texts, since a
failure of one of them would be fatal.

Main statements:
  * `Preparation.exists_make_of_reworded` — the move is prepared again, with the same unit.
-/

namespace ModuleMove

open ModuleMove.Path Discovery

/-! ## §1. The shape of a disk. -/

section

variable {d e : Disk} {p : Project}

/-- A directory lists the same names, with directories under the same ones. -/
theorem Disk.exists_list_of_sameShape (h : d.SameShape e) (he : e.WellFormed) {q : Path}
    {es : List (String × Node)} (hes : d.list q = .ok es) : ∃ fs, e.list q = .ok fs ∧
      ∀ k m, (k, m) ∈ fs → ∃ n, (k, n) ∈ es ∧ n.isDirectory = m.isDirectory := by
  obtain ⟨pl, hl⟩ := Disk.locate_of_list hes
  obtain ⟨pl', fs, hl'⟩ := Disk.hasDirectory_iff.1
    ((Disk.hasDirectory_of_sameShape h q).trans (Disk.hasDirectory_iff.2 ⟨_, _, hl⟩))
  obtain ⟨n, hn⟩ := Disk.exists_locate_of_sameShape h hl'
  obtain rfl : pl' = pl := (Prod.ext_iff.1 (Except.ok.inj (hn.symm.trans hl))).1
  refine ⟨fs, ?_, fun k m hm => ?_⟩
  · unfold Disk.list
    rw [hl']
  · -- an entry is what is at the place that is one step further
    have hchild : ∀ {t : Node} {xs : List (String × Node)},
        t.find? pl' = some (.directory xs) → t.find? (pl' ++ [k]) = Node.child? k xs := by
      intro t xs ht
      rw [Node.find?_append, ht]
      show (Node.child? k xs).bind some = _
      rw [Option.bind_fun_some]
    have hkind := h.2 (pl' ++ [k])
    rw [hchild (Disk.find?_of_locate hl), hchild (Disk.find?_of_locate hl'),
      Node.child?_of_mem hm (Disk.wellFormed_of_locate he hl').1] at hkind
    obtain ⟨n, hn, hnm⟩ := Option.map_eq_some_iff.1 hkind.symm
    exact ⟨n, Node.mem_of_child? hn, hnm⟩

theorem findBarrel_of_sameShape (h : d.SameShape e) (dir : Path) :
    findBarrel e p dir = findBarrel d p dir := by
  have hfile : e.hasFile = d.hasFile := funext (Disk.hasFile_of_sameShape h)
  unfold findBarrel
  rw [hfile]

namespace Preparation

theorem check_of_sameShape (h : d.SameShape e) (old new : Path) :
    check e p old new = check d p old new := by
  have hfile : e.hasFile = d.hasFile := funext (Disk.hasFile_of_sameShape h)
  unfold check kindRefusal? locateUnit
  simp only [hfile, Disk.has_of_sameShape h, Disk.hasDirectory_of_sameShape h]

theorem unit_of_sameShape (h : d.SameShape e) (old new : Path) (δ : Delta) :
    MovedUnit.make e p old new δ = MovedUnit.make d p old new δ := by
  unfold MovedUnit.make
  rw [Disk.hasDirectory_of_sameShape h]

/-- The destinations of a unit are free if they were. -/
theorem checkDestinations_of_sameShape {u : MovedUnit} (h : d.SameShape e) (he : e.WellFormed)
    (hu : checkDestinations d u = .ok ()) : checkDestinations e u = .ok () := by
  -- what is renamed is renamed on the other disk as well, so that its destination is free there
  have hmoves : ∃ ms, u.moves e = .ok ms ∧ ∀ m ∈ ms, d.has m.2 = false := by
    unfold checkDestinations at hu
    cases hd : u.moves d with
    | error x => rw [hd] at hu; cases hu
    | ok ms =>
      simp only [hd] at hu
      have hfree : ∀ m ∈ ms, d.has m.2 = false := by
        cases hf : ms.find? fun m => d.has m.2 with
        | some m => rw [hf] at hu; cases hu
        | none => exact fun m hm => Bool.eq_false_iff.2 (List.find?_eq_none.1 hf m hm)
      cases hs : u.style with
      | directory =>
        refine ⟨[(u.old, u.newModule)], ?_, ?_⟩
        · unfold MovedUnit.moves
          rw [hs]
        · rwa [MovedUnit.moves_of_directory hs hd] at hfree
      | file =>
        obtain ⟨es, hes, hmem⟩ := MovedUnit.mem_moves_of_file hs hd
        obtain ⟨fs, hfs, hlisted⟩ := Disk.exists_list_of_sameShape h he hes
        have hmoves : u.moves e = .ok (u.movesAmong fs) := by
          unfold MovedUnit.moves
          rw [hs]
          simp only [hfs]
          rfl
        refine ⟨_, hmoves, fun m hm => hfree m ((hmem m).2 ?_)⟩
        obtain ⟨es', hes', hmem'⟩ := MovedUnit.mem_moves_of_file hs hmoves
        obtain rfl := Except.ok.inj (hfs.symm.trans hes')
        obtain ⟨⟨k, n⟩, hin, t, ht, rfl⟩ := (hmem' m).1 hm
        obtain ⟨n', hin', hkind⟩ := hlisted k n hin
        refine ⟨(k, n'), hin', t, ?_, rfl⟩
        cases n <;> cases n' <;> first | exact ht | cases hkind
  obtain ⟨ms, hms, hfree⟩ := hmoves
  have hnone : ms.find? (fun m => e.has m.2) = none := by
    rw [List.find?_eq_none]
    intro m hm
    rw [Disk.has_of_sameShape h, hfree m hm]
    decide
  unfold checkDestinations
  simp only [hms, hnone]

end Preparation

end

/-! ## §2. The move. -/

/-- A name with an extension has a dot behind its first character. -/
theorem Path.dot_of_extension? {q : Path} {ext : String} (h : q.extension? = some ext) :
    ∃ k, q.fileName? = some k ∧ '.' ∈ k.toList.tail := by
  unfold extension? at h
  obtain ⟨k, hk, h⟩ := Option.bind_eq_some_iff.1 h
  refine ⟨k, hk, ?_⟩
  split at h
  · rename_i before after hlast
    have hk := lastPiece_eq_some hlast
    have hbefore : before.toList ≠ [] := by
      intro h0
      rw [String.toList_eq_nil_iff.1 h0] at h
      cases h
    obtain ⟨c, cs, hcs⟩ := List.exists_cons_of_ne_nil hbefore
    rw [hk, String.toList_append, String.toList_append, hcs]
    simp
  · cases h

namespace Preparation

section

variable {d e : Disk} {p : Project} {old new : Path} {x : Preparation} {found : Discovery}
  {rs : List String}

/-- What has been scanned are the files that are found and can be scanned. -/
theorem mem_scanned_of_make (h : make d p old new = .ok x) (hfound : discover d p = .ok found)
    {f : ScannedFile} : f ∈ x.index.scanned ↔
      (∃ g ∈ found.files, g.1 = f.path) ∧ scanFile d f.path = .ok f := by
  obtain ⟨found', hfound', hindex⟩ := index_of_make h
  obtain rfl := Except.ok.inj (hfound.symm.trans hfound')
  rw [hindex, Index.mem_scanned_ofScans]
  constructor
  · intro hmem
    obtain ⟨-, ⟨s, hs, hscan⟩, hlisted⟩ := Index.path_of_mem_goodScans hmem
    refine ⟨hlisted, ?_⟩
    unfold scanFile
    rw [hs]
    exact hscan
  · rintro ⟨⟨g, hg, hgf⟩, hscan⟩
    rw [Index.mem_goodScans]
    refine List.mem_map.2 ⟨g, hg, ?_⟩
    rw [hgf, hscan]

/-- **The move is prepared again, with the same unit**, if the files that travel hold what they
    did. -/
theorem exists_make_of_reworded (h : d.Reworded e) (hd : d.WellFormed) (he : e.WellFormed)
    (hroot : p.root.Straight rs) (hx : make d p old new = .ok x)
    (hkept : ∀ t ∈ x.index.travelling, e.readText t = d.readText t) :
    ∃ y, make e p old new = .ok y ∧ y.unit = x.unit := by
  obtain ⟨old', new', δ, hcheck, hu, -, -, -, hdest, -, -⟩ := make_eq_ok hx
  obtain ⟨found, hfound, hindex⟩ := index_of_make hx
  obtain ⟨found', hfound', hskipped, hfiles⟩ := exists_discover_of_reworded h hd he hroot hfound
  have hpaths : ∀ t, (∃ g ∈ found'.files, g.1 = t) ↔ ∃ g ∈ found.files, g.1 = t := fun t =>
    exists_congr fun g => and_congr_left' (hfiles g)
  have hscan : ∀ t ∈ x.index.travelling, scanFile e t = scanFile d t := by
    intro t ht
    unfold scanFile
    rw [hkept t ht]
  -- a travelling file has no failure now, as it had none before
  have hfatal : fatal? (.ofScans x.unit found'.skipped (Index.scansOf e found'.files)) = none := by
    refine List.findSome?_eq_none_iff.2 fun t ht => ?_
    obtain ⟨hlisted, htravels⟩ := Index.mem_travelling_ofScans.1 ht
    obtain ⟨k, hk, rfl⟩ := (hpaths t).1 hlisted
    have ht : k.1 ∈ x.index.travelling := by
      rw [hindex]
      exact Index.mem_travelling_ofScans.2 ⟨⟨k, hk, rfl⟩, htravels⟩
    have hnone := failure?_of_travelling hx ht
    rw [hindex, Index.failure?_eq_none_iff] at hnone
    rw [Index.failure?_eq_none_iff, hskipped]
    refine ⟨hnone.1, fun q g hm => Bool.eq_false_iff.2 fun hs => ?_⟩
    obtain ⟨f, hf, heq⟩ := List.mem_map.1 hm
    obtain ⟨rfl, hg⟩ := Prod.ext_iff.1 heq
    -- the file that cannot be scanned would be the one that travels
    obtain rfl := Path.eq_of_same Prod.fst (pairwise_discover hd hfound) ((hfiles f).1 hf) hk hs
    have hold : (f.1, scanFile d f.1) = (f.1, .error g) :=
      congrArg (Prod.mk f.1) ((hscan f.1 ht).symm.trans hg)
    have hno := hnone.2 f.1 g (List.mem_map.2 ⟨f, hk, hold⟩)
    rw [same_refl] at hno
    cases hno
  refine ⟨⟨p, e, x.unit, δ, .ofScans x.unit found'.skipped (Index.scansOf e found'.files)⟩, ?_,
    rfl⟩
  have hbuild : buildIndex e p x.unit
      = .ok (.ofScans x.unit found'.skipped (Index.scansOf e found'.files)) := by
    unfold buildIndex
    rw [hfound']
    rfl
  have hunit : MovedUnit.make e p old' new' δ = x.unit := by
    rw [unit_of_sameShape h.shape, hu]
  unfold make
  rw [check_of_sameShape h.shape, hcheck]
  simp only [hunit, checkDestinations_of_sameShape h.shape he hdest, hbuild, hfatal, bind,
    Except.bind]

end

/-! ## §3. Edited files. -/

section

variable {d : Disk} {p : Project} {old new : Path} {x : Preparation} {es : List Edit}

/-- Where scanned files are edited, only texts of sources change. -/
theorem Makes.reworded (hm : x.Makes es) (hd : d.WellFormed) (hx : make d p old new = .ok x) :
    (applyEdits d es).2.WellFormed ∧ d.Reworded (applyEdits d es).2 := by
  obtain ⟨rfl, -, -⟩ := unit_of_make hx
  obtain ⟨found, hfound, -⟩ := index_of_make hx
  obtain ⟨hwf, hshape, -⟩ := readText_editFiles_of_elsewhere hd (editsByFile es)
  refine ⟨hwf, hshape, fun dir name hname => ?_⟩
  by_contra hne
  obtain ⟨⟨t, bs⟩, hg, -, -, -, -, n, hn⟩ := look?_editFiles hd hne
  obtain ⟨-, e, he, rfl⟩ := mem_editsByFile hg
  obtain ⟨f, s, hf⟩ := hm.placed e he
  -- the file that has been edited has the name of a source
  obtain ⟨⟨g, hg, hgf⟩, -⟩ := (mem_scanned_of_make hx hfound).1 hf.shows.mem
  obtain ⟨_, _, _, -, -, hperm⟩ := discover_eq_ok hfound
  obtain ⟨q, -, hq⟩ := List.mem_filterMap.1 (hperm.mem_iff.1 hg)
  obtain rfl : q = f.path := (fst_of_sourceOf? hq).symm.trans hgf
  unfold Discovery.sourceOf? at hq
  obtain ⟨ext, hext, -⟩ := Option.bind_eq_some_iff.1 hq
  obtain ⟨k, hk, hdot⟩ := dot_of_extension? hext
  obtain ⟨cs, hcs⟩ := fileName?_eq_some_iff.1 hk
  rw [same_iff.1 hf.same] at hcs
  obtain ⟨pl, hpl⟩ := Disk.readText_eq_ok.1 hf.text
  obtain ⟨dir', hdir⟩ := Disk.place_of_name hd hcs hpl
  obtain rfl : dir ++ [name] = pl := (Prod.ext_iff.1 (Except.ok.inj (hn.symm.trans hpl))).1
  obtain ⟨-, hlast⟩ := List.append_inj' hdir rfl
  rw [(List.cons.inj hlast).1] at hname
  exact hname hdot

end

end Preparation

end ModuleMove
