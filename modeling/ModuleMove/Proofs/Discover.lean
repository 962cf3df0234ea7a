import ModuleMove.Discover
import ModuleMove.Proofs.Disk.Follow
import ModuleMove.Proofs.Path.Normal

/-!
# DISCOVERED FILES — where they are, and that each is found once

The walk goes down the tree, so a file that it finds is named by the root and the names on the way
to it.  As entries of one directory have different names, no file is found under two names.

Main statements:
  * `goesOn_of_discover` — a found file lies below the root, by names.
  * `pairwise_discover` — each file is found once.
-/

namespace ModuleMove

open Discovery

/-- A path that goes on from another by names leads to the place that these names lead to. -/
theorem Disk.place_of_goesOn {d : Disk} {base p : Path} {ns pl ql : List String} {n m : Node}
    (hb : d.locate base = .ok (pl, n)) (h : base.GoesOn p ns) (hp : d.locate p = .ok (ql, m)) :
    ql = pl ++ ns ∧ n.find? ns = some m := by
  obtain ⟨hne, k, hk, hfb⟩ := Disk.locate_eq_ok hb
  obtain ⟨-, j, hj, hfp⟩ := Disk.locate_eq_ok hp
  -- the path begins where its base begins
  have hstart : d.startOf p = d.startOf base := by
    have hiff : p.isAbsolute = true ↔ base.isAbsolute = true := by
      rw [Path.isAbsolute_iff_components, Path.isAbsolute_iff_components, h.2]
      cases hc : base.components with
      | nil => exact absurd (Path.components_eq_nil_iff.1 hc) hne
      | cons a cs => simp
    unfold Disk.startOf
    by_cases hp : p.isAbsolute = true
    · rw [if_pos hp, if_pos (hiff.1 hp)]
    · rw [if_neg hp, if_neg fun hb => hp (hiff.2 hb)]
  rw [hstart] at hj hfp
  rw [hk] at hj
  cases hj
  have hnames : (ns.map Component.name).filterMap Disk.stepOf? = ns := by
    rw [List.filterMap_map]
    exact List.filterMap_some
  have hfb := Disk.follow_filter hfb
  have hfp := Disk.follow_filter hfp
  rw [Disk.filter_stepsOf] at hfb hfp
  rw [h.2, List.filterMap_append, hnames, Disk.follow_append, hfb] at hfp
  exact (Disk.follow_names h.1).1 hfp

/-! ## §1. The walk. -/

section

variable (w : Discovery.Walk)

mutual

theorem goesOn_filesOf (layers : List Ignore.Layer) (place : List String) (path : Path) (n : Node)
    (hn : n.WellFormed) : ∀ f ∈ filesOf w layers place path n,
      ∃ ns c, path.GoesOn f ns ∧ n.find? ns = some (.file c) := by
  cases n with
  | file c =>
    intro f hf
    rw [filesOf, List.mem_singleton] at hf
    subst hf
    exact ⟨[], c, ⟨by simp, by simp⟩, rfl⟩
  | directory es =>
    intro f hf
    rw [filesOf] at hf
    rw [Node.WellFormed] at hn
    obtain ⟨k, m, ns, c, hm, hgo, hfind⟩ := goesOn_filesIn _ place path es hn.2 f hf
    refine ⟨k :: ns, c, hgo, ?_⟩
    rw [Node.find?_cons]
    show (Node.child? k es).bind _ = _
    rw [Node.child?_of_mem hm hn.1]
    exact hfind

theorem goesOn_filesIn (layers : List Ignore.Layer) (place : List String) (path : Path)
    (es : List (String × Node)) (hes : Node.AllWellFormed es) :
    ∀ f ∈ filesIn w layers place path es, ∃ k m ns c, (k, m) ∈ es ∧
      path.GoesOn f (k :: ns) ∧ m.find? ns = some (.file c) := by
  cases es with
  | nil =>
    intro f hf
    rw [filesIn] at hf
    cases hf
  | cons e es =>
    obtain ⟨k, n⟩ := e
    rw [Node.AllWellFormed] at hes
    intro f hf
    rw [filesIn] at hf
    -- the file is found in the first entry, or in those that follow
    rcases List.mem_append.1 hf with hf | hf
    · split at hf
      · cases hf
      · obtain ⟨ns, c, hgo, hfind⟩ := goesOn_filesOf layers (place ++ [k]) _ n hes.2.1 f hf
        exact ⟨k, n, ns, c, List.mem_cons_self .., hgo.cons hes.1, hfind⟩
    · obtain ⟨j, m, ns, c, hm, hgo, hfind⟩ := goesOn_filesIn layers place path es hes.2.2 f hf
      exact ⟨j, m, ns, c, List.mem_cons_of_mem _ hm, hgo, hfind⟩

end

mutual

theorem pairwise_filesOf (layers : List Ignore.Layer) (place : List String) (path : Path)
    (n : Node) (hn : n.WellFormed) :
    (filesOf w layers place path n).Pairwise fun a b => a.same b = false := by
  cases n with
  | file c =>
    rw [filesOf]
    exact List.pairwise_singleton ..
  | directory es =>
    rw [filesOf]
    rw [Node.WellFormed] at hn
    exact pairwise_filesIn _ place path es hn.2 hn.1

theorem pairwise_filesIn (layers : List Ignore.Layer) (place : List String) (path : Path)
    (es : List (String × Node)) (hes : Node.AllWellFormed es) (hd : (es.map (·.1)).Nodup) :
    (filesIn w layers place path es).Pairwise fun a b => a.same b = false := by
  cases es with
  | nil =>
    rw [filesIn]
    exact List.Pairwise.nil
  | cons e es =>
    obtain ⟨k, n⟩ := e
    rw [Node.AllWellFormed] at hes
    rw [List.map_cons, List.nodup_cons] at hd
    rw [filesIn, List.pairwise_append]
    refine ⟨?_, pairwise_filesIn layers place path es hes.2.2 hd.2, ?_⟩
    · split
      · exact List.Pairwise.nil
      · exact pairwise_filesOf _ _ _ n hes.2.1
    · -- the names on the way differ in the first one
      intro f hf g hg
      split at hf
      · cases hf
      · obtain ⟨ns, -, hgo, -⟩ := goesOn_filesOf w layers (place ++ [k]) _ n hes.2.1 f hf
        obtain ⟨j, m, ms, -, hm, hgo', -⟩ := goesOn_filesIn w layers place path es hes.2.2 g hg
        rw [Bool.eq_false_iff]
        intro hs
        have heq := (hgo.cons hes.1).inj hgo' hs
        rw [(List.cons.inj heq).1] at hd
        exact hd.1 (List.mem_map.2 ⟨_, hm, rfl⟩)

end

end

/-! ## §2. What is found. -/

theorem fst_of_sourceOf? {c : Config} {path : Path} {f : Path × Language}
    (h : sourceOf? c path = some f) : f.1 = path := by
  unfold sourceOf? at h
  simp only [Option.bind_eq_bind, Option.bind_eq_some_iff] at h
  obtain ⟨ext, -, language, -, h⟩ := h
  split at h
  · cases h
    rfl
  · cases h

/-- What is found are the sources among the files of a walk from the root. -/
theorem discover_eq_ok {d : Disk} {p : Project} {found : Discovery} (h : discover d p = .ok found) :
    ∃ place es own, d.locate p.root = .ok (place, .directory es) ∧ ownRules p.config = .ok own ∧
      found.files.Perm ((filesIn ⟨d, place, own⟩ ((Ignore.layerOf d place es).1 ::
        (layersAbove d place).1) place p.root es).filterMap (sourceOf? p.config)) := by
  unfold discover at h
  split at h
  · rename_i place es hl
    split at h
    · cases h
    · rename_i own ho
      cases h
      exact ⟨place, es, own, hl, ho, List.mergeSort_perm _ _⟩
  · cases h

section

variable {d : Disk} {p : Project} {found : Discovery}

/-- **A found file lies below the root**, by names. -/
theorem goesOn_of_discover (hd : d.WellFormed) (h : discover d p = .ok found) :
    ∀ f ∈ found.files, ∃ ns, p.root.GoesOn f.1 ns ∧ ns ≠ [] := by
  obtain ⟨place, es, own, hl, -, hperm⟩ := discover_eq_ok h
  intro f hf
  obtain ⟨q, hq, hs⟩ := List.mem_filterMap.1 (hperm.mem_iff.1 hf)
  have hes := hd.tree.find? (Disk.find?_of_locate hl)
  rw [Node.WellFormed] at hes
  obtain ⟨k, m, ns, c, -, hgo, -⟩ := goesOn_filesIn _ _ place p.root es hes.2 q hq
  rw [fst_of_sourceOf? hs]
  exact ⟨k :: ns, hgo, List.cons_ne_nil _ _⟩

/-- **Each file is found once.** -/
theorem pairwise_discover (hd : d.WellFormed) (h : discover d p = .ok found) :
    found.files.Pairwise fun a b => a.1.same b.1 = false := by
  obtain ⟨place, es, own, hl, -, hperm⟩ := discover_eq_ok h
  have hes := hd.tree.find? (Disk.find?_of_locate hl)
  rw [Node.WellFormed] at hes
  refine hperm.symm.pairwise ?_ fun {a b} hab => ?_
  · rw [List.pairwise_filterMap]
    refine (pairwise_filesIn _ _ place p.root es hes.2 hes.1).imp fun {a b} hab f hf g hg => ?_
    rw [fst_of_sourceOf? hf, fst_of_sourceOf? hg]
    exact hab
  · rw [Bool.eq_false_iff] at hab ⊢
    exact fun hs => hab (Path.same_symm hs)

/-- The root of a project in which files are found is a directory. -/
theorem locate_root_of_discover (h : discover d p = .ok found) :
    ∃ place es, d.locate p.root = .ok (place, .directory es) := by
  obtain ⟨place, es, -, hl, -⟩ := discover_eq_ok h
  exact ⟨place, es, hl⟩

end

/-- Files that are found in the order of their paths are listed as they are found. -/
theorem discover_of_sorted {d : Disk} {p : Project} {place : List String}
    {es : List (String × Node)} {own : List Ignore.Rule} {files : List (Path × Language)}
    (hroot : d.locate p.root = .ok (place, .directory es)) (hown : ownRules p.config = .ok own)
    (hfiles : (filesIn ⟨d, place, own⟩ ((Ignore.layerOf d place es).1 :: (layersAbove d place).1)
      place p.root es).filterMap (sourceOf? p.config) = files)
    (hs : files.Pairwise fun a b => a.1.le b.1 = true) :
    discover d p = .ok ⟨files, aboveFailures p.root (layersAbove d place).2⟩ := by
  unfold discover
  rw [hroot]
  simp only [hown, hfiles]
  rw [List.mergeSort_of_pairwise hs]

end ModuleMove
