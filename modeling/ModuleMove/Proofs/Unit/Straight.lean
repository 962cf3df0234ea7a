import ModuleMove.Proofs.Disk.Straight
import ModuleMove.Proofs.Unit.Moves

/-!
# STRAIGHT UNITS — the places of a unit are written by their names

In an absolute project, the paths that a move is checked for are written without detours, and so
are the directories that the unit leaves and enters, and the places of everything that is renamed.
An extension that is put behind a path must have no slash in it.

Main statements:
  * `exists_straight_unit` — the unit, the directory that it leaves and the one that it enters.
  * `newModule_of_directory` — a directory goes to the place that has been asked for.
-/

namespace ModuleMove

open ModuleMove.Path

/-! ## §1. Checked paths. -/

/-- The root of a project is written without detours. -/
theorem Project.straight_ofRoot {root : Path} (habs : root.isAbsolute = true) (c : Config) :
    ∃ rs, (Project.ofRoot root c).root.Straight rs :=
  straight_normalize habs

theorem Project.straight_absolute {p : Project} {rs : List String} (hroot : p.root.Straight rs)
    (q : Path) : ∃ ns, (p.absolute q).Straight ns := by
  unfold Project.absolute
  split
  · exact straight_normalize ‹_›
  · exact straight_normalize (hroot.isAbsolute_join q)

section

variable {d : Disk} {p : Project} {old new old' new' : Path} {δ : Delta} {added : Option String}
  {rs os ns : List String}

/-- What a path names is named by a straight path. -/
theorem straight_locateUnit (hd : d.Rooted) (hroot : p.root.Straight rs)
    (hexts : ∀ ext ∈ p.extensions, '/' ∉ ext.toList)
    (h : locateUnit d p old = .ok (old', added)) : ∃ ns, old'.Straight ns := by
  obtain ⟨ns, hns⟩ := p.straight_absolute hroot old
  unfold locateUnit at h
  simp only at h
  split at h
  · cases h
    exact ⟨ns, hns⟩
  · rename_i hno
    split at h
    · rename_i ext hf
      cases h
      -- the root is there, so that an extension is put behind a name
      rcases List.eq_nil_or_concat' ns with rfl | ⟨ks, k, rfl⟩
      · rw [Disk.has_straight hd hns, hd.look?_nil] at hno
        exact absurd rfl hno
      · exact ⟨_, hns.withExtension (hexts ext (List.mem_of_find?_eq_some hf))⟩
    · cases h

/-- A destination begins at the root of the tree. -/
theorem isAbsolute_completed (hroot : p.root.Straight rs) (q : Path) (added : Option String) :
    (Preparation.completed p (p.absolute q) added).isAbsolute = true := by
  obtain ⟨ns, hns⟩ := p.straight_absolute hroot q
  unfold Preparation.completed
  split
  · exact hns.isAbsolute
  · simp only
    split
    -- an extension at the end does not change how the path begins
    · refine isAbsolute_iff.2 ⟨joinText '/' ns ++ "." ++ ‹String›, ?_⟩
      unfold Path.withExtension
      rw [hns.2]
      simp only [String.append_assoc]
    · exact hns.isAbsolute

/-! ## §2. The directory that a unit enters. -/

/-- The directories that are entered have names. -/
theorem isName_of_mem_added (hroot : p.root.Straight rs) (hnew : new.isAbsolute = true)
    (hδ : Delta.compute old new p.root = .ok δ) : ∀ s ∈ δ.added, IsName s := by
  obtain ⟨cs, -, ys, -, b, -, hn, -, ha⟩ := Delta.compute_eq_ok hδ
  obtain ⟨ns, hns⟩ := straight_normalize hnew
  rw [hns.components, components_normalize, normalComponents_of_normal hroot.goesOn.normal,
    hroot.components, List.cons_append] at hn
  -- what is added stands at the end of the new path, and there are names alone behind its root
  have htail := (List.cons.inj hn).2
  intro s hs
  rw [ha] at hs
  obtain ⟨c, hc, rfl⟩ := List.mem_map.1 hs
  have hmem : c ∈ ns.map Component.name := by
    rw [htail]
    simp [hc]
  obtain ⟨t, ht, rfl⟩ := List.mem_map.1 hmem
  exact hns.1 t ht

/-- What a delta makes of a straight path is straight. -/
theorem straight_applyTo {dir : Path} (hdir : dir.Straight ns) (ha : ∀ s ∈ δ.added, IsName s) :
    ∃ ms, (δ.applyTo dir).Straight ms := by
  -- a delta goes up by parents and then down by names, and both keep a path straight
  have hup : ∀ (l : List String) (q : Path) (ns : List String), q.Straight ns →
      ∃ ms, (l.foldl (fun q _ => q.parent?.getD q) q).Straight ms := by
    intro l
    induction l with
    | nil => exact fun q ns hq => ⟨ns, hq⟩
    | cons a l ih =>
      intro q ns hq
      exact ih _ _ hq.parent
  have hdown : ∀ (l : List String), (∀ s ∈ l, IsName s) → ∀ (q : Path) (ns : List String),
      q.Straight ns → ∃ ms, (l.foldl (fun q s => q.join ⟨s⟩) q).Straight ms := by
    intro l
    induction l with
    | nil => exact fun _ q ns hq => ⟨ns, hq⟩
    | cons a l ih =>
      intro hl q ns hq
      obtain ⟨ha, hl⟩ := List.forall_mem_cons.1 hl
      exact ih hl _ _ (hq.join ha)
  obtain ⟨ms, hms⟩ := hup δ.removed dir ns hdir
  exact hdown δ.added ha _ ms hms

namespace MovedUnit

/-- The places of a unit are straight if its path is. -/
theorem exists_straight_of_delta (hroot : p.root.Straight rs) (hold : old.Straight ns)
    (habs : new.isAbsolute = true) (hδ : Delta.compute old new p.root = .ok δ) : ∃ as a gs,
      old.Straight (as ++ [a]) ∧ (make d p old new δ).oldParent.Straight as ∧
        (make d p old new δ).newParent.Straight gs := by
  -- the unit lies below the root of the project
  obtain ⟨cs, xs, -, a, -, ho, -⟩ := Delta.compute_eq_ok hδ
  rcases List.eq_nil_or_concat' ns with rfl | ⟨as, a, rfl⟩
  · rw [components_normalize, normalComponents_of_normal hold.goesOn.normal, hold.components,
      components_normalize, normalComponents_of_normal hroot.goesOn.normal, hroot.components] at ho
    simp at ho
  obtain ⟨q, hq, hqs⟩ := hold.exists_parent
  have hleave : (make d p old new δ).oldParent = q := by
    show old.parent?.getD p.root = q
    rw [hq]
    rfl
  obtain ⟨gs, hgs⟩ := straight_applyTo hqs (isName_of_mem_added hroot habs hδ)
  refine ⟨as, a, gs, hold, hleave ▸ hqs, ?_⟩
  show (δ.applyTo (make d p old new δ).oldParent).Straight gs
  rw [hleave]
  exact hgs

/-- The directory that a unit enters is the one that its destination is in. -/
theorem straight_newParent (hroot : p.root.Straight rs) (hold : old.Straight os)
    (hnew : new.Straight ns) (hδ : Delta.compute old new p.root = .ok δ) :
    ∃ gs b, ns = gs ++ [b] ∧ (make d p old new δ).newParent.Straight gs := by
  obtain ⟨as, a, gs, hold, hleave, henter⟩ :=
    exists_straight_of_delta (d := d) hroot hold hnew.isAbsolute hδ
  obtain ⟨bs, b, -, hgo, -⟩ := goesOn_unit (d := d) hroot.goesOn hδ hold.goesOn
  obtain ⟨-, -, cs, c, -, -, hnewc, henterc⟩ :=
    components_newParent hroot.goesOn.normal hδ hgo
  have henterc : (make d p old new δ).newParent.components = p.root.components ++ cs := henterc
  rw [components_normalize, normalComponents_of_normal hnew.goesOn.normal, ← List.append_assoc,
    ← henterc, henter.components, hnew.components, List.cons_append] at hnewc
  -- the directory that is entered has the names of the destination but for the last
  have htail := (List.cons.inj hnewc).2
  rcases List.eq_nil_or_concat' ns with rfl | ⟨ks, k, rfl⟩
  · simp at htail
  rw [List.map_append, List.map_singleton] at htail
  obtain ⟨hks, -⟩ := List.append_inj' htail rfl
  obtain rfl := map_name_inj hks
  exact ⟨ks, k, rfl, henter⟩

/-- A directory goes to its destination. -/
theorem newModule_of_straight (hroot : p.root.Straight rs) (hold : old.Straight os)
    (hnew : new.Straight ns) (hδ : Delta.compute old new p.root = .ok δ)
    (hs : (make d p old new δ).style = .directory) : (make d p old new δ).newModule = new := by
  obtain ⟨gs, b, rfl, henter⟩ := straight_newParent (d := d) hroot hold hnew hδ
  -- its name is that of the destination
  have hname : (make d p old new δ).newName = b := by
    have hfile := Preparation.fileName?_of_goesOn hnew.goesOn
    show nameOf (make d p old new δ).style p.extensions new = b
    rw [hs]
    show new.fileName?.getD "" = b
    rw [hfile]
    rfl
  unfold newModule
  rw [hname]
  exact (henter.join (hnew.1 b (by simp))).ext hnew

/-- **The places of a unit are straight**, and those of what is checked for it. -/
theorem exists_straight_unit (hd : d.Rooted) (hroot : p.root.Straight rs)
    (hexts : ∀ ext ∈ p.extensions, '/' ∉ ext.toList)
    (h : Preparation.check d p old new = .ok (old', new', δ)) : ∃ as a gs,
      old'.Straight (as ++ [a]) ∧ (make d p old' new' δ).oldParent.Straight as ∧
        (make d p old' new' δ).newParent.Straight gs := by
  obtain ⟨added, hl, hnew, hδ, -⟩ := Preparation.check_eq_ok h
  obtain ⟨ns, hns⟩ := straight_locateUnit hd hroot hexts hl
  refine exists_straight_of_delta hroot hns ?_ hδ
  rw [hnew]
  exact isAbsolute_completed hroot new added

/-- A directory is named in full, and its destination is taken as it is. -/
theorem absolute_of_directory (h : Preparation.check d p old new = .ok (old', new', δ))
    (hs : (make d p old' new' δ).style = .directory) :
    old' = p.absolute old ∧ new' = p.absolute new := by
  obtain ⟨added, hl, hnew, -⟩ := Preparation.check_eq_ok h
  rcases Preparation.locateUnit_eq_ok hl with ⟨rfl, hold⟩ | ⟨-, -, -, hfile⟩
  · exact ⟨hold, hnew⟩
  · obtain ⟨pl, c, hfile⟩ := Disk.hasFile_iff.1 hfile
    obtain ⟨pl', es, hdir⟩ := Disk.hasDirectory_iff.1 (Preparation.hasDirectory_of_style hs)
    rw [hfile] at hdir
    cases hdir

/-- The paths of a directory are straight. -/
theorem exists_straight_paths (hroot : p.root.Straight rs)
    (h : Preparation.check d p old new = .ok (old', new', δ))
    (hs : (make d p old' new' δ).style = .directory) :
    (∃ ns, old'.Straight ns) ∧ ∃ ns, new'.Straight ns := by
  obtain ⟨hold, hnew⟩ := absolute_of_directory h hs
  rw [hold, hnew]
  exact ⟨p.straight_absolute hroot old, p.straight_absolute hroot new⟩

/-- The places of a directory are straight, whatever the extensions are. -/
theorem exists_straight_directory (hroot : p.root.Straight rs)
    (h : Preparation.check d p old new = .ok (old', new', δ))
    (hs : (make d p old' new' δ).style = .directory) : ∃ as a gs,
      old'.Straight (as ++ [a]) ∧ (make d p old' new' δ).oldParent.Straight as ∧
        (make d p old' new' δ).newParent.Straight gs := by
  obtain ⟨-, -, -, hδ, -⟩ := Preparation.check_eq_ok h
  obtain ⟨⟨os, hold⟩, ns, hnew⟩ := exists_straight_paths hroot h hs
  exact exists_straight_of_delta hroot hold hnew.isAbsolute hδ

/-- A directory goes to the place that has been asked for. -/
theorem newModule_of_directory (hroot : p.root.Straight rs)
    (h : Preparation.check d p old new = .ok (old', new', δ))
    (hs : (make d p old' new' δ).style = .directory) :
    (make d p old' new' δ).newModule = new' := by
  obtain ⟨-, -, -, hδ, -⟩ := Preparation.check_eq_ok h
  obtain ⟨⟨os, hold⟩, ns, hnew⟩ := exists_straight_paths hroot h hs
  exact newModule_of_straight hroot hold hnew hδ hs

end MovedUnit

end

end ModuleMove
