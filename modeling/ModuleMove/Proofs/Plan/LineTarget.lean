import ModuleMove.Proofs.Plan.BarrelLine
import ModuleMove.Proofs.Plan.Destination
import ModuleMove.Proofs.Plan.Probed

/-!
# THE TARGET OF THE LINE — what the line put into a barrel stands for after the move

The line names the unit by its new name alone.  What it stands for is found by probing, once the
files are where they go.  A file is found if no other file comes to stand where probing looks
earlier.  A directory is found if it holds an index file and no source file beside it has its name.

Main statements:
  * `Preparation.Completed.hasFile_iff` — where files are after the renames of a plan.
  * `Preparation.Completed.probe_iff`, `Preparation.MovesDirectory.probe_iff` — what is found at a
    module path after the move.
  * `inserted_line_leads` — when the line stands for a file that has been carried along.
  * `directory_line_lost` — a line for a directory that stands for nothing.
-/

namespace ModuleMove

open ModuleMove.Path

/-- No file comes to stand, by renames or from before, where a module path is tried before the path
    `q`. -/
def Unobstructed (d : Disk) (extensions : List String) (moves : List (Path × Path))
    (base q : Path) : Prop :=
  ∀ p ks, p.Straight ks → d.hasFile p = true →
    placeAfter moves p ∉ (candidates extensions base).takeWhile (· != q)

namespace Preparation

/-! ## §1. Where files are. -/

/-- The renames of a plan have been made on a disk `e` of the shape of the one that has been planned
    for, and have left the disk `e'`. -/
structure Completed (x : Preparation) (e e' : Disk) : Prop where
  /-- The renames carry files along. -/
  carries : x.Carries
  /-- The edits have kept the shape of the disk. -/
  shape : x.disk.SameShape e
  /-- The disk has a tree. -/
  rooted : e.Rooted
  /-- So has the one that is left. -/
  rooted' : e'.Rooted
  /-- The files are where the renames put them. -/
  moved : e.Moved e' x.plan.moves

/-- A move that has been carried out and whose renames have succeeded is completed. -/
theorem completed_of_renameAll {d d₁ d₂ : Disk} {p : Project} {old new : Path} {x : Preparation}
    {rs : List String} (hd : d.WellFormed) (hroot : p.root.Straight rs)
    (hexts : ∀ ext ∈ p.extensions, '/' ∉ ext.toList) (h : make d p old new = .ok x)
    (hn : IsName x.unit.newName) (hd₁ : d₁.Rooted) (hshape : d.SameShape d₁)
    (hrenamed : renameAll d₁ x.plan.moves = (.ok (), d₂)) : x.Completed d₁ d₂ := by
  obtain ⟨hmovable, hd₂, hmoved⟩ := movable_of_renameAll hd hroot hexts h hn hd₁ hshape hrenamed
  have hcarries := carries_of_make hd hroot hexts h hn hmovable
  obtain ⟨rfl, -, -⟩ := unit_of_make h
  exact ⟨hcarries, hshape, hd₁, hd₂, hmoved⟩

section

variable {x : Preparation} {e e' : Disk} {q z : Path} {zs : List String}
  {extensions : List String}

/-- **Where files are after the renames of a plan**: where a file of the disk goes. -/
theorem Completed.hasFile_iff (h : x.Completed e e') (hz : z.Straight zs) :
    e'.hasFile z = true ↔ ∃ p ks, p.Straight ks ∧ x.disk.hasFile p = true ∧
      placeAfter x.plan.moves p = z := by
  have hrooted := h.carries.rooted
  have hmovable := h.carries.movable.of_sameShape h.rooted h.shape
  constructor
  · intro hfile
    obtain ⟨c, hc⟩ := (Disk.hasFile_iff_fileAt h.rooted' hz).1 hfile
    obtain ⟨p, ks, hp, hfound, hpz⟩ := h.moved.exists_of_fileAt hmovable hz hc
    have hthere := h.shape.exists_fileAt.1 ⟨c, hfound⟩
    exact ⟨p, ks, hp, (Disk.hasFile_iff_fileAt hrooted hp).2 hthere, hpz⟩
  · rintro ⟨p, ks, hp, hfile, rfl⟩
    obtain ⟨c, hc⟩ := h.shape.exists_fileAt.2 ((Disk.hasFile_iff_fileAt hrooted hp).1 hfile)
    obtain ⟨gs, hgs, hfound⟩ := h.moved.fileAt_placeAfter hmovable hp hc
    exact (Disk.hasFile_iff_fileAt h.rooted' hgs).2 ⟨c, hfound⟩

/-- Where files are after the renames, by names: in a new place is what was in the old one, and
    outside of the old places is what was there. -/
theorem Completed.hasFile_iff_names (h : x.Completed e e') (hz : z.Straight zs) :
    e'.hasFile z = true ↔
      (∃ m ∈ x.plan.moves, ∃ rest p, zs = m.2.names ++ rest ∧ p.Straight (m.1.names ++ rest) ∧
        x.disk.hasFile p = true) ∨
      (∀ m ∈ x.plan.moves, ¬ m.1.names <+: zs) ∧ x.disk.hasFile z = true := by
  have hmovable := h.carries.movable
  rw [h.hasFile_iff hz]
  constructor
  · rintro ⟨p, ks, hp, hfile, rfl⟩
    rcases renames_cases hmovable hp with ⟨hstays, hout⟩ | ⟨m, hm, rest, rfl⟩
    · rw [placeAfter_of_stays hstays] at hz ⊢
      rw [← hz.names_eq, hp.names_eq]
      exact .inr ⟨hout, hfile⟩
    · obtain ⟨-, hplace⟩ := placeAfter_of_mem hmovable hm hp
      exact .inl ⟨m, hm, rest, p, by rw [← hz.names_eq, hplace.names_eq], hp, hfile⟩
  · rintro (⟨m, hm, rest, p, rfl, hp, hfile⟩ | ⟨hout, hfile⟩)
    · obtain ⟨-, hplace⟩ := placeAfter_of_mem hmovable hm hp
      exact ⟨p, _, hp, hfile, hplace.ext hz⟩
    · have hstays : ¬ Renames x.plan.moves z := fun ⟨m, hm, hunder⟩ =>
        hout m hm ((hz.isUnder_iff (hmovable.straight m hm).1).1 hunder)
      exact ⟨z, zs, hz, hfile, placeAfter_of_stays hstays⟩

/-- Nothing is at a new place before the renames, or below it. -/
theorem Carries.not_hasFile_goal (hx : x.Carries) {m : Path × Path} (hm : m ∈ x.plan.moves)
    {rest : List String} (hz : z.Straight (m.2.names ++ rest)) : x.disk.hasFile z = false := by
  rw [Bool.eq_false_iff]
  intro hfile
  obtain ⟨c, hc⟩ := (Disk.hasFile_iff_fileAt hx.rooted hz).1 hfile
  rw [Disk.fileAt_eq_some, Node.look?_eq_file, Node.find?_append,
    Node.look?_eq_none.1 (hx.movable.free m hm)] at hc
  cases hc

/-! ## §2. Files. -/

/-- The candidates for a straight path are straight. -/
theorem straight_of_mem_candidates {base : Path} {ns : List String} (hbase : base.Straight ns)
    (hne : ns ≠ []) (hexts : ∀ ext ∈ extensions, '/' ∉ ext.toList)
    (h : z ∈ candidates extensions base) : ∃ zs, z.Straight zs := by
  obtain ⟨a, ha, rfl⟩ := List.mem_map.1 h
  exact ⟨_, Attempt.straight_at hbase hne fun ext hext => hexts ext (mem_of_mem_attempts ha hext)⟩

/-- **A file is found at a module path after the move** exactly if no file comes to stand where the
    path is tried before the place that the file goes to. -/
theorem Completed.probe_iff (h : x.Completed e e') (hexts : ∀ ext ∈ extensions, '/' ∉ ext.toList)
    {base : Path} {ns ks : List String} (hbase : base.Straight ns) (hne : ns ≠ [])
    (hq : q.Straight ks) (hfile : x.disk.hasFile q = true)
    (hmem : placeAfter x.plan.moves q ∈ candidates extensions base) :
    probe e' extensions base = some (placeAfter x.plan.moves q) ↔
      Unobstructed x.disk extensions x.plan.moves base (placeAfter x.plan.moves q) := by
  have hafter : ∀ {z}, z ∈ candidates extensions base → (e'.hasFile z = true ↔ _) := fun hz =>
    h.hasFile_iff (straight_of_mem_candidates hbase hne hexts hz).choose_spec
  rw [probe_eq_some_iff]
  constructor
  · rintro ⟨-, -, hnone⟩ p ps hp hthere hearlier
    have hno := hnone _ hearlier
    rw [(hafter (List.takeWhile_subset _ hearlier)).2 ⟨p, ps, hp, hthere, rfl⟩] at hno
    cases hno
  · intro hfree
    refine ⟨hmem, (hafter hmem).2 ⟨q, ks, hq, hfile, rfl⟩, fun z hz => ?_⟩
    rw [Bool.eq_false_iff]
    intro hthere
    obtain ⟨p, ps, hp, hpfile, rfl⟩ := (hafter (List.takeWhile_subset _ hz)).1 hthere
    exact hfree p ps hp hpfile hz

/-- **A file goes to a place that is tried for its new module path.** -/
theorem placeAfter_mem_candidates {d : Disk} {p : Project} {old new : Path} {rs : List String}
    (hd : d.WellFormed) (hroot : p.root.Straight rs)
    (hexts : ∀ ext ∈ p.extensions, '/' ∉ ext.toList) (h : make d p old new = .ok x)
    (hx : x.Carries) (hs : x.unit.style = .file) :
    (∃ ks, x.unit.old.Straight ks) ∧ d.hasFile x.unit.old = true ∧
      placeAfter x.plan.moves x.unit.old ∈ candidates p.extensions x.unit.newModule := by
  obtain ⟨as, a, -, -, hold, -⟩ := exists_straight_file hd hroot hexts h
  obtain ⟨a', -, -, -, hmem, -⟩ := mem_moves_old hd hroot hexts h hs
  have hfile : d.hasFile x.unit.old = true := by
    obtain ⟨old', new', δ, hc, hu, -⟩ := make_eq_ok h
    rw [hu] at hs ⊢
    exact hasFile_of_check hc hs
  refine ⟨⟨_, hold⟩, hfile, ?_⟩
  obtain ⟨hsource, hgoal⟩ := hx.movable.straight _ hmem
  have hplace : placeAfter x.plan.moves x.unit.old
      = x.unit.newParent.join ⟨x.unit.newName ++ sourceEnd a' p.extensions⟩ := by
    have hself : x.unit.old.Straight (x.unit.old.names ++ []) := by
      rw [List.append_nil]
      exact hsource
    obtain ⟨-, hplace⟩ := placeAfter_of_mem hx.movable hmem hself
    rw [List.append_nil] at hplace
    exact hplace.ext hgoal
  rw [hplace]
  unfold candidates
  -- the file keeps its extension, or it has none
  rcases sourceEnd_eq a' p.extensions with hend | ⟨ext, hext, hend⟩
  · rw [hend, String.append_empty]
    exact List.mem_map.2 ⟨.bare, List.mem_cons_self .., rfl⟩
  · refine List.mem_map.2 ⟨.extended ext, ?_, ?_⟩
    · exact List.mem_cons_of_mem _ (List.mem_append_left _ (List.mem_map_of_mem hext))
    · have hbeside := hx.straight.newModule.withExtension (hexts ext hext)
      have hname : IsName (x.unit.newName ++ ("." ++ ext)) := hbeside.1 _ (by simp)
      rw [hend]
      exact hbeside.ext (hx.straight.enters.join hname)

/-! ## §3. Directories. -/

/-- What lies in a place does not have its name with something behind it. -/
theorem append_ne_extended {as rest : List String} {n ext : String} :
    as ++ [n ++ ("." ++ ext)] ≠ as ++ [n] ++ rest := by
  intro h
  rw [List.append_assoc] at h
  have hlen := congrArg String.length (List.cons.inj (List.append_cancel_left h)).1
  simp at hlen

/-- A directory is renamed as a whole. -/
structure MovesDirectory (x : Preparation) : Prop where
  /-- The unit is a directory. -/
  style : x.unit.style = .directory
  /-- It is on the disk. -/
  there : x.disk.hasDirectory x.unit.old = true
  /-- It goes to its new place. -/
  moves : x.plan.moves = [(x.unit.old, x.unit.newModule)]

theorem movesDirectory_of_make {d : Disk} {p : Project} {old new : Path} {rs : List String}
    (hd : d.WellFormed) (hroot : p.root.Straight rs) (h : make d p old new = .ok x)
    (hs : x.unit.style = .directory) : x.MovesDirectory := by
  obtain ⟨-, -, -, -, -, hthere, -⟩ := exists_straight_of_directory hd hroot h hs
  obtain ⟨rfl, -, -⟩ := unit_of_make h
  exact ⟨hs, hthere, MovedUnit.moves_of_directory hs (moves_of_make h).1⟩

namespace MovesDirectory

theorem mem_moves (h : x.MovesDirectory) : (x.unit.old, x.unit.newModule) ∈ x.plan.moves := by
  rw [h.moves]
  exact .head _

/-- The directory itself is not a file. -/
theorem not_hasFile (h : x.MovesDirectory) : x.disk.hasFile x.unit.old = false := by
  rw [Bool.eq_false_iff]
  intro hfile
  have := Disk.not_same_of_hasDirectory h.there hfile
  rw [same_refl] at this
  cases this

/-- A path in the directory leads into its new place. -/
theorem straight_placeAfter (h : x.MovesDirectory) (hx : x.Carries) {rest : List String}
    (hq : q.Straight (x.unit.oldParent.names ++ [x.unit.name] ++ rest)) :
    Renames x.plan.moves q ∧ (placeAfter x.plan.moves q).Straight
      (x.unit.newParent.names ++ [x.unit.newName] ++ rest) := by
  have hold := hx.straight.old h.style
  have hnew := hx.straight.newModule
  rw [← hold.names_eq] at hq
  obtain ⟨hrenames, hplace⟩ := placeAfter_of_mem hx.movable h.mem_moves hq
  change (placeAfter x.plan.moves q).Straight (x.unit.newModule.names ++ rest) at hplace
  rw [hnew.names_eq] at hplace
  exact ⟨hrenames, hplace⟩

/-- Where files are after the directory has been moved. -/
theorem hasFile_iff (h : x.MovesDirectory) (hc : x.Completed e e') (hz : z.Straight zs) :
    e'.hasFile z = true ↔
      (∃ rest p, zs = x.unit.newParent.names ++ [x.unit.newName] ++ rest ∧
        p.Straight (x.unit.oldParent.names ++ [x.unit.name] ++ rest) ∧
        x.disk.hasFile p = true) ∨
      ¬ x.unit.oldParent.names ++ [x.unit.name] <+: zs ∧ x.disk.hasFile z = true := by
  rw [hc.hasFile_iff_names hz, h.moves]
  simp only [List.mem_singleton, exists_eq_left, forall_eq]
  rw [(hc.carries.straight.old h.style).names_eq, hc.carries.straight.newModule.names_eq]

/-- The new place of the directory is no file. -/
theorem not_hasFile_newModule (h : x.MovesDirectory) (hc : x.Completed e e') :
    e'.hasFile x.unit.newModule = false := by
  have hold := hc.carries.straight.old h.style
  have hnew := hc.carries.straight.newModule
  rw [Bool.eq_false_iff, Ne, h.hasFile_iff hc hnew]
  rintro (⟨rest, p, hrest, hp, hfile⟩ | ⟨-, hfile⟩)
  · rw [List.self_eq_append_right] at hrest
    rw [hrest, List.append_nil] at hp
    rw [hp.ext hold, h.not_hasFile] at hfile
    cases hfile
  · have hgoal : x.unit.newModule.Straight (x.unit.newModule.names ++ []) := by
      rw [List.append_nil, hnew.names_eq]
      exact hnew
    rw [hc.carries.not_hasFile_goal h.mem_moves hgoal] at hfile
    cases hfile

/-- What stands beside the directory, with its name and an extension, has been there before. -/
theorem hasFile_beside (h : x.MovesDirectory) (hc : x.Completed e e') {ext : String}
    (hext : '/' ∉ ext.toList) : e'.hasFile (x.unit.newModule.withExtension ext)
      = x.disk.hasFile (x.unit.newModule.withExtension ext) := by
  have hold := hc.carries.straight.old h.style
  have hnew := hc.carries.straight.newModule
  have hbeside := hnew.withExtension hext
  rw [Bool.eq_iff_iff, h.hasFile_iff hc hbeside]
  constructor
  · rintro (⟨rest, p, hrest, -⟩ | ⟨-, hfile⟩)
    · exact absurd hrest append_ne_extended
    · exact hfile
  · refine fun hfile => .inr ⟨fun hle => ?_, hfile⟩
    -- it would be the directory itself, or the directory would go into itself
    rcases List.prefix_concat_iff.1 hle with heq | hle
    · rw [heq] at hold
      rw [hbeside.ext hold, h.not_hasFile] at hfile
      cases hfile
    · refine hc.carries.movable.into _ h.mem_moves _ h.mem_moves ?_
      rw [hold.names_eq, hnew.names_eq]
      exact hle.trans (List.prefix_append ..)

/-- What lies in the directory has been in its old place. -/
theorem hasFile_inside (h : x.MovesDirectory) (hc : x.Completed e e') {f : String}
    (hf : IsName f) :
    e'.hasFile (x.unit.newModule.join ⟨f⟩) = x.disk.hasFile (x.unit.old.join ⟨f⟩) := by
  have hnew := hc.carries.straight.newModule
  have hinner := hnew.join hf
  have houter := (hc.carries.straight.old h.style).join hf
  rw [Bool.eq_iff_iff, h.hasFile_iff hc hinner]
  constructor
  · rintro (⟨rest, p, hrest, hp, hfile⟩ | ⟨-, hfile⟩)
    · rw [← List.append_cancel_left hrest] at hp
      rwa [← hp.ext houter]
    · rw [← hnew.names_eq] at hinner
      rw [hc.carries.not_hasFile_goal h.mem_moves hinner] at hfile
      cases hfile
  · exact fun hfile => .inl ⟨[f], _, rfl, houter, hfile⟩

/-- If no source file beside its new place has its name, an index file is looked for in it. -/
theorem probe_eq_find? (h : x.MovesDirectory) (hc : x.Completed e e')
    (hexts : ∀ ext ∈ extensions, '/' ∉ ext.toList)
    (hno : ∀ ext ∈ extensions, x.disk.hasFile (x.unit.newModule.withExtension ext) = false) :
    probe e' extensions x.unit.newModule
      = (extensions.map fun ext => x.unit.newModule.join ⟨"index." ++ ext⟩).find? e'.hasFile :=
  probe_of_directory (h.not_hasFile_newModule hc) fun ext hext =>
    (h.hasFile_beside hc (hexts ext hext)).trans (hno ext hext)

/-- If a file of the directory is found, no source file beside it has its name. -/
theorem not_hasFile_beside_of_probe (h : x.MovesDirectory) (hc : x.Completed e e')
    (hexts : ∀ ext ∈ extensions, '/' ∉ ext.toList) {ks : List String} (hq : q.Straight ks)
    (hrenames : Renames x.plan.moves q)
    (hprobe : probe e' extensions x.unit.newModule = some (placeAfter x.plan.moves q)) :
    ∀ ext ∈ extensions, x.disk.hasFile (x.unit.newModule.withExtension ext) = false := by
  intro ext hext
  rw [Bool.eq_false_iff]
  intro hfile
  rw [← h.hasFile_beside hc (hexts ext hext)] at hfile
  obtain ⟨ext', hext', hfound⟩ := probe_of_extended (h.not_hasFile_newModule hc) hext hfile
  -- what has been carried along does not stand beside the directory
  obtain ⟨m, hm, hunder⟩ := hrenames
  rw [h.moves, List.mem_singleton] at hm
  rw [hm] at hunder
  obtain ⟨rest, rfl⟩ := (hq.isUnder_iff (hc.carries.straight.old h.style)).1 hunder
  obtain ⟨-, hplace⟩ := h.straight_placeAfter hc.carries hq
  have hnames := (hc.carries.straight.newModule.withExtension (hexts ext' hext')).names_eq
  rw [← Option.some.inj (hprobe.symm.trans hfound), hplace.names_eq] at hnames
  exact append_ne_extended hnames.symm

/-- **A file of a directory is found at its module path after the move** exactly if the directory
    holds an index file and no source file beside its new place has its name. -/
theorem probe_iff (h : x.MovesDirectory) (hc : x.Completed e e')
    (hexts : ∀ ext ∈ extensions, '/' ∉ ext.toList) :
    (∃ q ks, q.Straight ks ∧ x.disk.hasFile q = true ∧ Renames x.plan.moves q ∧
      probe e' extensions x.unit.newModule = some (placeAfter x.plan.moves q)) ↔
      (∃ ext ∈ extensions, x.disk.hasFile (x.unit.old.join ⟨"index." ++ ext⟩) = true) ∧
        ∀ ext ∈ extensions, x.disk.hasFile (x.unit.newModule.withExtension ext) = false := by
  have hname : ∀ ext ∈ extensions, IsName ("index." ++ ext) := fun ext hext =>
    Attempt.isName_index (hexts ext hext)
  constructor
  · rintro ⟨q, ks, hq, -, hrenames, hprobe⟩
    have hno := h.not_hasFile_beside_of_probe hc hexts hq hrenames hprobe
    rw [h.probe_eq_find? hc hexts hno] at hprobe
    obtain ⟨ext, hext, hat⟩ := List.mem_map.1 (List.mem_of_find?_eq_some hprobe)
    have hfile := List.find?_some hprobe
    rw [← hat, h.hasFile_inside hc (hname ext hext)] at hfile
    exact ⟨⟨ext, hext, hfile⟩, hno⟩
  · rintro ⟨⟨ext, hext, hfile⟩, hno⟩
    have hsome : ((extensions.map fun ext => x.unit.newModule.join ⟨"index." ++ ext⟩).find?
        e'.hasFile).isSome = true := by
      rw [List.find?_isSome]
      exact ⟨_, List.mem_map_of_mem hext, (h.hasFile_inside hc (hname ext hext)).trans hfile⟩
    obtain ⟨z, hz⟩ := Option.isSome_iff_exists.1 hsome
    obtain ⟨ext', hext', rfl⟩ := List.mem_map.1 (List.mem_of_find?_eq_some hz)
    have hthere := List.find?_some hz
    rw [h.hasFile_inside hc (hname ext' hext')] at hthere
    -- the index file that is found is the one of that name in the old place
    have hq := (hc.carries.straight.old h.style).join (hname ext' hext')
    obtain ⟨hrenames, hplace⟩ := h.straight_placeAfter hc.carries hq
    refine ⟨_, _, hq, hthere, hrenames, ?_⟩
    rw [h.probe_eq_find? hc hexts hno, hz,
      hplace.ext (hc.carries.straight.newModule.join (hname ext' hext'))]

end MovesDirectory

/-! ## §4. The line. -/

/-- The line names the unit's new module path. -/
theorem resolve_line {d : Disk} {p : Project} {old new b : Path} {rs : List String}
    (hd : d.WellFormed) (hroot : p.root.Straight rs)
    (hnames : ∀ n ∈ p.config.barrelNames, ∀ ext ∈ p.extensions, IsName (n ++ "." ++ ext))
    (h : make d p old new = .ok x) (hx : x.Carries) (h2 : x.unit.newName ≠ "..")
    (hb : findBarrel d p x.unit.newParent = some b) {f : ScannedFile}
    (hf : x.index.file? b = some f) :
    Specifier.resolve (Specifier.relative x.unit.newParent x.unit.newModule) (p.directoryOf b)
      p.root = x.unit.newModule := by
  obtain ⟨-, hsame⟩ := unit_specifier hd hroot hnames h h2 hb hf
  obtain ⟨n, hn, ext, hext, hbarrel, -⟩ := findBarrel_eq_some hb
  have hstraight : b.Straight (x.unit.newParent.names ++ [n ++ "." ++ ext]) := by
    rw [hbarrel]
    exact hx.straight.enters.join (hnames n hn ext hext)
  obtain ⟨ds, hds⟩ := Project.straight_directoryOf hroot hstraight
  obtain ⟨ts, hts⟩ := Specifier.straight_resolve hds hroot
    (Specifier.relative x.unit.newParent x.unit.newModule)
  -- both paths are straight, so that they are one path
  obtain rfl := (hts.same_iff hx.straight.newModule).1 hsame
  exact hts.ext hx.straight.newModule

end

end Preparation

/-- **When the line put into a barrel stands for a file that has been carried along.**  A move has
    been carried out, its plan puts a line into the barrel of the directory that the unit enters,
    and the renames have been made.  The line names the unit's new module path.  If the unit is a
    file, that path stands for the file exactly if no other file comes to stand where the path is
    tried earlier.  If it is a directory, that path stands for a file of the directory exactly if
    the directory holds an index file and no source file beside its new place has its name. -/
theorem inserted_line_leads {d d₁ d₂ : Disk} {root : Path} {c : Config} {old new : Path}
    {report : MoveReport} (hd : d.WellFormed) (habs : root.isAbsolute = true)
    (hexts : ∀ ext ∈ c.extensions, '/' ∉ ext.toList)
    (hnames : ∀ n ∈ c.barrelNames, ∀ ext ∈ c.extensions, IsName (n ++ "." ++ ext))
    (h : carryOut d (.ofRoot root c) old new = .ok (report, d₁))
    (hrenamed : renameAll d₁ report.plan.moves = (.ok (), d₂))
    (h1 : (MovedUnit.make d (.ofRoot root c) report.plan.old report.plan.new
      report.plan.delta).newName ≠ ".")
    (h2 : (MovedUnit.make d (.ofRoot root c) report.plan.old report.plan.new
      report.plan.delta).newName ≠ "..") :
    ∃ x, Preparation.make d (.ofRoot root c) old new = .ok x ∧ report.plan = x.plan ∧
      ∀ e ∈ x.barrelEdits.edits, e.isInsert = true → ∃ specifier pre post q,
        e.written.toList = pre ++ wildcardLine q specifier ++ post ∧ (∀ y ∈ pre ++ post, y = '\n') ∧
        Specifier.resolve specifier ((Project.ofRoot root c).directoryOf e.target)
          (Project.ofRoot root c).root = x.unit.newModule ∧
        (x.unit.style = .file →
          (probe d₂ c.extensions x.unit.newModule
              = some (placeAfter report.plan.moves x.unit.old) ↔
            Unobstructed d c.extensions report.plan.moves x.unit.newModule
              (placeAfter report.plan.moves x.unit.old))) ∧
        (x.unit.style = .directory →
          ((∃ q ks, q.Straight ks ∧ d.hasFile q = true ∧ Renames report.plan.moves q ∧
              probe d₂ c.extensions x.unit.newModule = some (placeAfter report.plan.moves q)) ↔
            (∃ ext ∈ c.extensions, d.hasFile (x.unit.old.join ⟨"index." ++ ext⟩) = true) ∧
              ∀ ext ∈ c.extensions, d.hasFile (x.unit.newModule.withExtension ext) = false)) := by
  obtain ⟨hplan, -, -⟩ := carryOut_eq_ok h
  obtain ⟨hd₁, hshape⟩ := sameShape_carryOut hd h
  obtain ⟨x, hx, hpl⟩ := Preparation.plan_eq_ok hplan
  rw [hpl] at h1 h2 hrenamed ⊢
  obtain ⟨rs, hroot⟩ := Project.straight_ofRoot habs c
  obtain ⟨hdisk, -, hunit⟩ := Preparation.unit_of_make hx
  rw [hunit] at h1 h2
  have hn := Preparation.isName_newName_of_make hd hroot hx h1 h2
  have hdone := Preparation.completed_of_renameAll hd hroot hexts hx hn hd₁.rooted hshape hrenamed
  have hcarries := hdone.carries
  refine ⟨x, hx, rfl, fun e he hi => ?_⟩
  subst hdisk
  obtain ⟨b, hb, -, hfound, -, hline⟩ := Preparation.exists_line he hi
  obtain ⟨f, -, hf, -, -⟩ := Preparation.barrelAt_eq_ok hb
  obtain ⟨-, hproject, -⟩ := Preparation.unit_of_make hx
  rw [hproject] at hfound
  obtain ⟨q, -, hwildcard⟩ := Preparation.exists_exportLine x b
  obtain ⟨pre, post, hpre, hpost, -, hwritten, -⟩ :=
    Preparation.exists_written_insertionOf b (x.exportLine b)
  rw [← hline, hwildcard] at hwritten
  refine ⟨_, pre, post, q, hwritten, List.forall_mem_append.2 ⟨hpre, hpost⟩,
    Preparation.resolve_line hd hroot hnames hx hcarries h2 hfound hf, fun hs => ?_, fun hs => ?_⟩
  · obtain ⟨⟨ks, hold⟩, hfile, hmem⟩ :=
      Preparation.placeAfter_mem_candidates hd hroot hexts hx hcarries hs
    exact hdone.probe_iff hexts hcarries.straight.newModule (by simp) hold hfile hmem
  · exact (Preparation.movesDirectory_of_make hd hroot hx hs).probe_iff hdone hexts

/-! ## §5. Two directories. -/

/-- A disk with a directory that holds one empty file, and a barrel where the directory goes. -/
def heldDisk (name : String) : Disk where
  top := .directory [("lib", .directory [(name, .file (.text ""))]),
    ("q", .directory [("index.ts", .file (.text "export const a = 1;\n"))])]
  here := []

/-- The directory, on its way to the barrel. -/
def heldUnit (name : String) : MovedUnit :=
  .make (heldDisk name) smallProject ⟨"/lib"⟩ ⟨"/q/lib"⟩ ⟨"q", .moveDown, 1, [], ["q"]⟩

/-- What is known when the directory is moved. -/
def heldPreparation (name : String) (found : Discovery) : Preparation :=
  .ofFound (heldDisk name) smallProject (heldUnit name) ⟨"q", .moveDown, 1, [], ["q"]⟩ found

/-- The move is prepared, whatever the file is called. -/
theorem prepared_heldDisk {name : String} {found : Discovery}
    (hfound : discover (heldDisk name) smallProject = .ok found)
    (hfree : Preparation.checkDestinations (heldDisk name) (heldUnit name) = .ok ())
    (hfatal : Preparation.fatal? (heldPreparation name found).index = none) :
    Preparation.make (heldDisk name) smallProject ⟨"lib"⟩ ⟨"q/lib"⟩
      = .ok (heldPreparation name found) := by
  have hcheck : Preparation.check (heldDisk name) smallProject ⟨"lib"⟩ ⟨"q/lib"⟩
      = .ok (⟨"/lib"⟩, ⟨"/q/lib"⟩, ⟨"q", .moveDown, 1, [], ["q"]⟩) := rfl
  unfold heldUnit at hfree
  unfold heldPreparation heldUnit at hfatal ⊢
  exact Preparation.make_of_found hcheck hfree hfound hfatal

/-- The line for the directory. -/
def heldEdit : Edit := ⟨⟨"/q/index.ts"⟩, 19, .insert "\nexport * from './lib';"⟩

/-- The disk after the edit, and after the rename. -/
def heldAfter (name : String) : Disk × Disk :=
  let d₁ := (applyEdits (heldDisk name) [heldEdit]).2
  (d₁, (renameAll d₁ [(⟨"/lib"⟩, ⟨"/q/lib"⟩)]).2)

theorem wellFormed_heldDisk : (heldDisk "index.ts").WellFormed := by
  refine ⟨?_, _, rfl⟩
  simp only [heldDisk, Node.WellFormed, Node.AllWellFormed]
  decide

/-- The line for a directory with an index file stands for that file. -/
theorem index_line_leads : ∃ report d₁ d₂,
    carryOut (heldDisk "index.ts") smallProject ⟨"lib"⟩ ⟨"q/lib"⟩ = .ok (report, d₁) ∧
      renameAll d₁ report.plan.moves = (.ok (), d₂) ∧ report.plan.edits = [heldEdit] ∧
      ∃ specifier pre post q,
        heldEdit.written.toList = pre ++ wildcardLine q specifier ++ post ∧
        (∀ y ∈ pre ++ post, y = '\n') ∧
        Specifier.resolve specifier (smallProject.directoryOf heldEdit.target) smallProject.root
          = ⟨"/q/lib"⟩ ∧
        ∃ q ks, q.Straight ks ∧ (heldDisk "index.ts").hasFile q = true ∧
          Renames report.plan.moves q ∧
          probe d₂ smallProject.extensions ⟨"/q/lib"⟩ = some (placeAfter report.plan.moves q) := by
  let found : Discovery :=
    ⟨[(⟨"/lib/index.ts"⟩, .typeScript), (⟨"/q/index.ts"⟩, .typeScript)], []⟩
  have hfound : discover (heldDisk "index.ts") smallProject = .ok found :=
    discover_smallProject rfl (by decide +kernel) (List.pairwise_pair.2 (by decide +kernel))
  have hmade := prepared_heldDisk hfound (by decide +kernel) (by decide +kernel)
  obtain ⟨hedits, hmoves, hline⟩ :
      (heldPreparation "index.ts" found).plan.edits = [heldEdit] ∧
        (heldPreparation "index.ts" found).plan.moves = [(⟨"/lib"⟩, ⟨"/q/lib"⟩)] ∧
        (heldPreparation "index.ts" found).barrelEdits.edits = [heldEdit] := by decide +kernel
  have hcarry := carryOut_of_plan (Preparation.plan_of_make hmade) rfl
  rw [hedits] at hcarry
  have hrenamed : renameAll (heldAfter "index.ts").1 (heldPreparation "index.ts" found).plan.moves
      = (.ok (), (heldAfter "index.ts").2) := by
    rw [hmoves]
    exact eq_of_isOk (by decide +kernel)
  have hname : (MovedUnit.make (heldDisk "index.ts") smallProject
      (heldPreparation "index.ts" found).plan.old (heldPreparation "index.ts" found).plan.new
      (heldPreparation "index.ts" found).plan.delta).newName = "lib" := by decide +kernel
  have hmodule : (heldPreparation "index.ts" found).unit.newModule = ⟨"/q/lib"⟩ := by
    decide +kernel
  obtain ⟨x, hx, -, hall⟩ := inserted_line_leads wellFormed_heldDisk (by decide) (by decide)
    (by decide) hcarry hrenamed (fun h => absurd (hname.symm.trans h) (by decide))
    (fun h => absurd (hname.symm.trans h) (by decide))
  obtain rfl := Except.ok.inj (hmade.symm.trans hx)
  obtain ⟨specifier, pre, post, q, hwritten, hends, hresolve, -, hdirectory⟩ :=
    hall heldEdit (by rw [hline]; exact List.mem_singleton_self _) rfl
  have hleads := (hdirectory rfl).2 ⟨⟨"ts", by decide, by decide +kernel⟩, by decide +kernel⟩
  rw [hmodule] at hresolve hleads
  exact ⟨_, _, _, hcarry, hrenamed, hedits, specifier, pre, post, q, hwritten, hends, hresolve,
    hleads⟩

/-- **A line for a directory without an index file stands for nothing.**  The edit and the rename
    have been made, the barrel has the line, and nothing is found where it leads. -/
theorem directory_line_lost : ∃ report d₁ d₂,
    carryOut (heldDisk "k.txt") smallProject ⟨"lib"⟩ ⟨"q/lib"⟩ = .ok (report, d₁) ∧
      report.failed = [] ∧ renameAll d₁ report.plan.moves = (.ok (), d₂) ∧
      report.plan.edits = [heldEdit] ∧
      d₂.readText ⟨"/q/index.ts"⟩ = .ok "export const a = 1;\nexport * from './lib';\n" ∧
      Specifier.resolve "./lib" (smallProject.directoryOf ⟨"/q/index.ts"⟩) smallProject.root
        = ⟨"/q/lib"⟩ ∧
      probe d₂ smallProject.extensions ⟨"/q/lib"⟩ = none := by
  let found : Discovery := ⟨[(⟨"/q/index.ts"⟩, .typeScript)], []⟩
  have hfound : discover (heldDisk "k.txt") smallProject = .ok found :=
    discover_smallProject rfl (by decide +kernel) (List.pairwise_singleton ..)
  have hmade := prepared_heldDisk hfound (by decide +kernel) (by decide +kernel)
  obtain ⟨hedits, hmoves⟩ :
      (heldPreparation "k.txt" found).plan.edits = [heldEdit] ∧
        (heldPreparation "k.txt" found).plan.moves = [(⟨"/lib"⟩, ⟨"/q/lib"⟩)] := by
    decide +kernel
  have hcarry := carryOut_of_plan (Preparation.plan_of_make hmade) rfl
  rw [hedits] at hcarry
  have hok : MoveReport.failed ⟨(heldPreparation "k.txt" found).plan, false,
      (applyEdits (heldDisk "k.txt") [heldEdit]).1⟩ = [] := by decide +kernel
  have hrenamed : renameAll (heldAfter "k.txt").1 (heldPreparation "k.txt" found).plan.moves
      = (.ok (), (heldAfter "k.txt").2) := by
    rw [hmoves]
    exact eq_of_isOk (by decide +kernel)
  exact ⟨_, _, _, hcarry, hok, hrenamed, hedits, eq_ok_of_toOption (by decide +kernel),
    by decide +kernel, by decide +kernel⟩

end ModuleMove
