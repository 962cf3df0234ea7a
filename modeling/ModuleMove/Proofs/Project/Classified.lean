import ModuleMove.Proofs.Plan.Barrels
import ModuleMove.Proofs.Plan.CarryOut
import ModuleMove.Proofs.Unit.Back

/-!
# CLASSIFIED FILES — spec files are companions, and barrels are refused

Whether a file is a spec file is read off the end of its name, and whether it goes along with a unit
off the beginning.  The two agree: a file is a spec file exactly if some unit beside it would take
it along through one of the suffixes.  A barrel is looked for under the names of barrels and known
by them, so that what is found is not moved on its own.

Main statements:
  * `Project.isSpec_iff` — the spec files by their names.
  * `MovedUnit.BesideFile.relocate` — what goes along keeps its suffix and its extension.
  * `Project.classification_agrees` — classification agrees with what a move takes along and
    refuses.
  * `slashed_barrel_moves` — a barrel found under a name with a slash is moved.
-/

namespace ModuleMove

open ModuleMove.Path

/-! ## §1. Names taken apart. -/

theorem Path.exists_of_extension? {f : Path} {ext : String} (h : f.extension? = some ext) :
    ∃ stem, stem ≠ "" ∧ f.fileName? = some (stem ++ ("." ++ ext)) := by
  unfold extension? at h
  obtain ⟨name, hname, h⟩ := Option.bind_eq_some_iff.1 h
  split at h
  · rename_i before after hlast
    split at h
    · cases h
    · rename_i hne
      cases h
      refine ⟨before, by simpa using hne, ?_⟩
      rw [hname, lastPiece_eq_some hlast, String.append_assoc]
  · cases h

namespace Project

section

variable {p : Project} {f g : Path} {stem suffix ext : String}

theorem endsInSuffix_iff :
    endsInSuffix stem suffix = true ↔ ∃ n, n ≠ "" ∧ stem = n ++ "." ++ suffix := by
  unfold endsInSuffix
  constructor
  · intro h
    split at h
    · rename_i before hbefore
      rw [Bool.and_eq_true, decide_eq_true_eq, Option.isSome_iff_exists] at h
      obtain ⟨hlong, n, hn⟩ := h
      obtain rfl := beforeEnd?_eq_some.1 hn
      refine ⟨n, ?_, beforeEnd?_eq_some.1 hbefore⟩
      intro h0
      rw [h0] at hlong
      exact absurd hlong (by decide)
    · cases h
  · rintro ⟨n, hn, rfl⟩
    have hpos : n.length ≠ 0 := by
      intro h0
      exact hn (String.length_eq_zero_iff.1 h0)
    have hdot : beforeEnd? "." (n ++ ".") = some n := beforeEnd?_eq_some.2 rfl
    have hone : ".".length = 1 := by decide
    rw [beforeEnd?_eq_some.2 rfl]
    show (decide (1 < (n ++ ".").length) && (beforeEnd? "." (n ++ ".")).isSome) = true
    rw [hdot, Bool.and_eq_true, decide_eq_true_eq, String.length_append]
    exact ⟨by omega, rfl⟩

theorem sourceStem?_eq_some (hdots : ∀ e ∈ p.extensions, '.' ∉ e.toList)
    (hf : f.fileName? = some (stem ++ ("." ++ ext))) (hstem : stem ≠ "")
    (hext : ext ∈ p.extensions) : p.sourceStem? f = some stem := by
  have hstrip := stripSourceExtension_append hstem hext hdots
  have hshort := length_stripSourceExtension hstem hext
  unfold sourceStem?
  rw [hf]
  show (if _ < _ then some (stripSourceExtension _ _) else none) = _
  rw [if_pos hshort, hstrip]

/-- **The spec files by their names**: something, a dot and one of the suffixes stand before the
    extension. -/
theorem isSpec_iff (hdots : ∀ e ∈ p.extensions, '.' ∉ e.toList)
    (hf : f.fileName? = some (stem ++ ("." ++ ext))) (hstem : stem ≠ "")
    (hext : ext ∈ p.extensions) : p.isSpec f = true ↔
      ∃ n s, n ≠ "" ∧ s ∈ p.config.specSuffixes ∧ stem = n ++ "." ++ s := by
  unfold isSpec
  rw [sourceStem?_eq_some hdots hf hstem hext]
  simp only [List.any_eq_true, endsInSuffix_iff]
  constructor
  · rintro ⟨s, hs, n, hn, he⟩
    exact ⟨n, s, hn, hs, he⟩
  · rintro ⟨n, s, hn, hs, he⟩
    exact ⟨s, hs, n, hn, he⟩

/-- The barrels by their names. -/
theorem isBarrel_iff (hdots : ∀ e ∈ p.extensions, '.' ∉ e.toList)
    (hf : f.fileName? = some (stem ++ ("." ++ ext))) (hstem : stem ≠ "")
    (hext : ext ∈ p.extensions) : p.isBarrel f = true ↔ stem ∈ p.config.barrelNames := by
  unfold isBarrel
  rw [sourceStem?_eq_some hdots hf hstem hext]
  exact List.contains_iff_mem

theorem isBarrel_congr (h : f.same g = true) : p.isBarrel f = p.isBarrel g := by
  unfold isBarrel sourceStem? fileName?
  rw [same_iff.1 h]

end

end Project

/-! ## §2. Companions. -/

namespace MovedUnit

/-- A file unit of the project with the name `n`, in the directory of the file `f`. -/
structure BesideFile (u : MovedUnit) (p : Project) (f : Path) (n : String) : Prop where
  /-- It is made from two paths, as units are. -/
  made : ∃ d old new δ, u = make d p old new δ
  /-- It is a file. -/
  style : u.style = .file
  /-- It has the name. -/
  name : u.name = n
  /-- It is where the file is. -/
  dir : ∃ dir, f.parent? = some dir ∧ dir.same u.oldParent = true

/-- A unit takes a file along through a suffix: without its source extension, the file has the name
    of the unit, a dot and the suffix. -/
def CompanionThrough (u : MovedUnit) (f : Path) (s : String) : Prop :=
  u.travels f = true ∧ ∃ name, f.fileName? = some name ∧
    stripSourceExtension name u.extensions = u.name ++ "." ++ s

section

variable {p : Project} {f : Path} {u : MovedUnit} {n s name ext : String}

/-- The unit that a path is made into where no directory is. -/
theorem besideFile_make {d : Disk} {old dir : Path} (new : Path) (δ : Delta)
    (hd : d.hasDirectory old = false) (hn : n ≠ "")
    (hdots : ∀ e ∈ p.extensions, '.' ∉ e.toList) (hext : ext ∈ p.extensions)
    (hold : old.components = dir.components ++ [.name (n ++ ("." ++ ext))])
    (hdir : f.parent? = some dir) : (make d p old new δ).BesideFile p f n := by
  have hstyle : (make d p old new δ).style = .file := by
    rw [Preparation.style_make, if_neg (by rw [hd]; decide)]
  obtain ⟨q, hq, hqc⟩ := parent?_eq_some hold (by simp)
  refine ⟨⟨d, old, new, δ, rfl⟩, hstyle, ?_, dir, hdir, ?_⟩
  · show nameOf (make d p old new δ).style p.extensions old = n
    rw [hstyle]
    show stripSourceExtension (old.fileName?.getD "") p.extensions = n
    rw [fileName?_eq_some_iff.2 ⟨_, hold⟩]
    exact stripSourceExtension_append hn hext hdots
  · show dir.same (old.parent?.getD p.root) = true
    rw [hq]
    exact same_iff.2 hqc.symm

theorem BesideFile.extensions (h : u.BesideFile p f n) : u.extensions = p.extensions := by
  obtain ⟨d, old, new, δ, rfl⟩ := h.made
  rfl

theorem BesideFile.specSuffixes (h : u.BesideFile p f n) :
    u.specSuffixes = p.config.specSuffixes := by
  obtain ⟨d, old, new, δ, rfl⟩ := h.made
  rfl

/-- **What goes along keeps its suffix and its extension.** -/
theorem BesideFile.relocate (h : u.BesideFile p f n) (hs : s ∈ p.config.specSuffixes)
    (hdots : ∀ e ∈ p.extensions, '.' ∉ e.toList) (hext : ext ∈ p.extensions) (hn : n ≠ "")
    (hf : f.fileName? = some (n ++ "." ++ s ++ ("." ++ ext))) :
    u.relocate f = some (u.newParent.join ⟨u.newName ++ "." ++ s ++ "." ++ ext⟩) := by
  obtain ⟨dir, hdir, hsame⟩ := h.dir
  -- the file stands in the directory of the unit
  obtain ⟨cs, hcs⟩ := fileName?_eq_some_iff.1 hf
  obtain ⟨q, hq, hqc⟩ := parent?_eq_some hcs (by simp)
  obtain rfl := Option.some.inj (hq.symm.trans hdir)
  have hc : f.components = u.oldParent.components ++ [.name (n ++ "." ++ s ++ ("." ++ ext))] := by
    rw [hcs, ← same_iff.1 hsame, hqc]
  -- a dot and the suffix follow the name of the unit
  have hend : u.isCompanionEnd ("." ++ s) = true := by
    unfold isCompanionEnd
    rw [afterStart?_eq_some.2 rfl, h.specSuffixes]
    exact List.contains_iff_mem.2 hs
  have hstem : n ++ "." ++ s ≠ "" := by
    intro h0
    rw [String.append_assoc, String.append_eq_empty_iff] at h0
    exact hn h0.1
  have hstrip := stripSourceExtension_append hstem hext hdots
  have hnew : u.relocatedName? (n ++ "." ++ s ++ ("." ++ ext))
      = some (u.newName ++ "." ++ s ++ "." ++ ext) := by
    unfold relocatedName?
    rw [h.extensions, hstrip, ← h.name]
    simpa only [String.append_assoc] using renamed?_append (.inr hend) ("." ++ ext)
  rw [relocate_of_components h.style hc, hnew]
  rfl

end

end MovedUnit

/-! ## §3. Room for a unit. -/

/-- In an empty tree no path that ends with a name leads to a directory. -/
theorem Disk.hasDirectory_of_empty {d : Disk} {q : Path} {cs : List Component} {s : String}
    (ht : d.top = .directory []) (hq : q.components = cs ++ [.name s]) :
    d.hasDirectory q = false := by
  have hs : IsName s := isName_of_fileName? (fileName?_eq_some_iff.2 ⟨cs, hq⟩)
  rw [Bool.eq_false_iff]
  intro hd
  obtain ⟨pl, es, hl⟩ := Disk.hasDirectory_iff.1 hd
  obtain ⟨-, n, hn, hfollow⟩ := Disk.locate_eq_ok hl
  -- the last step is taken by a name, from a node of the tree
  have hfollow := Disk.follow_filter hfollow
  have hsteps : (Disk.stepsOf q).filter Disk.moves = cs.filterMap Disk.stepOf? ++ [s] := by
    rw [Disk.filter_stepsOf, hq, List.filterMap_append]
    rfl
  rw [hsteps, Disk.follow_append] at hfollow
  obtain ⟨⟨dir, m⟩, hdir, hlast⟩ := exists_of_bind_eq_ok hfollow
  have hm : d.top.find? dir = some m := Disk.find?_of_follow hn hdir
  obtain ⟨-, hfound⟩ := (Disk.follow_names (List.forall_mem_singleton.2 hs)).1 hlast
  have hnone : m.find? [s] = none := by
    rw [ht] at hm
    cases dir with
    | nil =>
      obtain rfl := Option.some.inj hm
      rfl
    | cons k ks => cases hm
  rw [hnone] at hfound
  cases hfound

theorem Path.isName_append_dot {n ext : String} (hn : n ≠ "") (hslash : '/' ∉ n.toList)
    (hext : ext ≠ "") (hextslash : '/' ∉ ext.toList) : IsName (n ++ ("." ++ ext)) := by
  have hone : ".".length = 1 := by decide
  have hlong : 2 < (n ++ ("." ++ ext)).length := by
    have hn' : n.length ≠ 0 := fun h0 => hn (String.length_eq_zero_iff.1 h0)
    have hext' : ext.length ≠ 0 := fun h0 => hext (String.length_eq_zero_iff.1 h0)
    rw [String.length_append, String.length_append]
    omega
  have hne : ∀ t : String, t.length ≤ 2 → n ++ ("." ++ ext) ≠ t := by
    intro t ht he
    rw [he] at hlong
    omega
  refine ⟨hne "" (by decide), hne "." (by decide), hne ".." (by decide), ?_⟩
  rw [String.toList_append, String.toList_append, List.mem_append, List.mem_append]
  rintro (h | h | h)
  · exact hslash h
  · exact absurd h (by decide)
  · exact hextslash h

/-- Beside a file there is room for a unit of any name. -/
theorem MovedUnit.exists_besideFile {p : Project} {f : Path} {n name ext : String} (hn : n ≠ "")
    (hslash : '/' ∉ n.toList) (hdots : ∀ e ∈ p.extensions, '.' ∉ e.toList)
    (hext : ext ∈ p.extensions) (hempty : ext ≠ "") (hextslash : '/' ∉ ext.toList)
    (hf : f.fileName? = some name) : ∃ u : MovedUnit, u.BesideFile p f n := by
  obtain ⟨cs, hcs⟩ := fileName?_eq_some_iff.1 hf
  obtain ⟨dir, hdir, -⟩ := parent?_eq_some hcs (by simp)
  have hold := components_join_name dir (isName_append_dot hn hslash hempty hextslash)
  have hd := Disk.hasDirectory_of_empty (d := ⟨.directory [], [], []⟩) rfl hold
  exact ⟨_, besideFile_make f default hd hn hdots hext hold hdir⟩

/-! ## §4. Barrels. -/

section

variable {d : Disk} {p : Project} {b dir old new located : Path} {added : Option String}

theorem Delta.refused_of_compute {old new root : Path} {e : Failure}
    (h : Delta.compute old new root = .error e) : ∃ r, e = .refused r := by
  unfold compute at h
  simp only at h
  split at h
  · exact ⟨_, (Except.error.inj h).symm⟩
  · split at h
    · exact ⟨_, (Except.error.inj h).symm⟩
    · split at h
      · exact ⟨_, (Except.error.inj h).symm⟩
      · split at h <;> cases h

theorem refused_of_locateUnit {e : Failure} (h : locateUnit d p old = .error e) :
    ∃ r, e = .refused r := by
  unfold locateUnit at h
  simp only at h
  split at h
  · cases h
  · split at h
    · cases h
    · exact ⟨_, (Except.error.inj h).symm⟩

/-- **What is found as a barrel is known as one**, by its name in the directory, if the names of
    barrels and the extensions are parts of file names. -/
theorem isBarrel_of_findBarrel (hexts : ∀ e ∈ p.extensions, e ≠ "" ∧ '.' ∉ e.toList)
    (hnames : ∀ n ∈ p.config.barrelNames, n ≠ "")
    (hextslash : ∀ e ∈ p.extensions, '/' ∉ e.toList)
    (hnameslash : ∀ n ∈ p.config.barrelNames, '/' ∉ n.toList)
    (h : findBarrel d p dir = some b) : p.isBarrel b = true ∧ d.hasFile b = true ∧
      ∃ name, IsName name ∧ b = dir.join ⟨name⟩ := by
  obtain ⟨stem, hstem, ext, hext, hb, hf⟩ := findBarrel_eq_some h
  rw [String.append_assoc] at hb
  have hname : IsName (stem ++ ("." ++ ext)) :=
    isName_append_dot (hnames stem hstem) (hnameslash stem hstem) (hexts ext hext).1
      (hextslash ext hext)
  have hfile : b.fileName? = some (stem ++ ("." ++ ext)) := by
    rw [hb]
    exact fileName?_eq_some_iff.2 ⟨_, components_join_name dir hname⟩
  refine ⟨?_, hf, _, hname, hb⟩
  exact (Project.isBarrel_iff (fun e he => (hexts e he).2) hfile (hnames stem hstem) hext).2 hstem

/-- A barrel is refused by its kind, wherever it would go. -/
theorem kindRefusal?_of_isBarrel (hb : p.isBarrel b = true) (hf : d.hasFile b = true)
    (hsame : located.same b = true) (new : Path) :
    Preparation.kindRefusal? d p located new = some .barrelFile ∨
      (Scan.languageOf? located = none ∧
        Preparation.kindRefusal? d p located new = some (.unsupportedFile located)) := by
  have hd : d.hasDirectory located = false := by
    by_contra hd
    rw [Bool.not_eq_false] at hd
    rw [Disk.not_same_of_hasDirectory hd hf] at hsame
    cases hsame
  unfold Preparation.kindRefusal?
  rw [if_neg (by rw [hd]; decide)]
  by_cases hl : (Scan.languageOf? located).isNone = true
  · rw [if_pos hl]
    exact .inr ⟨Option.isNone_iff_eq_none.1 hl, rfl⟩
  · rw [if_neg hl, if_pos (by rw [Project.isBarrel_congr hsame, hb])]
    exact .inl rfl

/-- **A barrel is not moved on its own**: a path that names nothing else is refused. -/
theorem refused_of_isBarrel (hb : p.isBarrel b = true) (hf : d.hasFile b = true)
    (hold : ∀ located added, locateUnit d p old = .ok (located, added) → located.same b = true)
    (new : Path) : ∃ r, Preparation.check d p old new = .error (.refused r) := by
  unfold Preparation.check
  cases hl : locateUnit d p old with
  | error e =>
    obtain ⟨r, rfl⟩ := refused_of_locateUnit hl
    exact ⟨r, rfl⟩
  | ok found =>
    obtain ⟨located, added⟩ := found
    cases hδ : Delta.compute located (Preparation.completed p (p.absolute new) added) p.root with
    | error e =>
      obtain ⟨r, rfl⟩ := Delta.refused_of_compute hδ
      refine ⟨r, ?_⟩
      simp only [bind, Except.bind]
      rw [hδ]
    | ok δ =>
      have hkind := kindRefusal?_of_isBarrel hb hf (hold located added hl)
        (Preparation.completed p (p.absolute new) added)
      obtain ⟨r, hr⟩ : ∃ r, Preparation.kindRefusal? d p located
          (Preparation.completed p (p.absolute new) added) = some r := by
        rcases hkind with hr | ⟨-, hr⟩
        · exact ⟨_, hr⟩
        · exact ⟨_, hr⟩
      refine ⟨r, ?_⟩
      simp only [bind, Except.bind]
      rw [hδ]
      simp only
      rw [hr]

/-- What is found under a path that goes on by names is found without its spelling. -/
theorem Disk.has_normalize {q : Path} {ns : List String} (hd : d.Rooted) (hq : Path.top.GoesOn q ns)
    (hf : d.hasFile q = true) : d.has q.normalize = true := by
  obtain ⟨pl, c, hl⟩ := Disk.hasFile_iff.1 hf
  obtain ⟨-, n, hn, hfollow⟩ := Disk.locate_eq_ok hl
  have hfollow := Disk.follow_filter hfollow
  have habs : q.isAbsolute = true := isAbsolute_iff_components.2 ⟨_, hq.2⟩
  have hstart : d.startOf q = [] := by
    unfold Disk.startOf
    rw [if_pos habs]
  have hsteps : (Disk.stepsOf q).filter Disk.moves = ns := by
    rw [Disk.filter_stepsOf, hq.2, List.filterMap_append, List.filterMap_map]
    exact List.filterMap_some
  rw [hstart] at hn hfollow
  obtain rfl := Option.some.inj hn
  rw [hsteps] at hfollow
  obtain ⟨-, hfound⟩ := (Disk.follow_names hq.1).1 hfollow
  have hnormal : Path.top.GoesOn q.normalize ns := by
    refine ⟨hq.1, ?_⟩
    rw [components_normalize, normalComponents_of_normal hq.normal, hq.2]
  rw [Disk.has_straight hd (straight_of_goesOn hnormal), Node.look?, hfound]
  rfl

/-- The path of a barrel, in a directory without detours, names the barrel. -/
theorem locateUnit_barrel (hd : d.WellFormed) (hdir : dir.Direct)
    (hf : d.hasFile b = true) {name : String} (hname : IsName name) (hb : b = dir.join ⟨name⟩) :
    ∀ located added, locateUnit d p b = .ok (located, added) → located.same b = true := by
  obtain ⟨ns, hns⟩ := hdir.exists_goesOn
  have hbs : top.GoesOn b (ns ++ [name]) := by
    refine ⟨List.forall_mem_append.2 ⟨hns.1, List.forall_mem_singleton.2 hname⟩, ?_⟩
    rw [hb, components_join_name dir hname, hns.2, List.map_append, List.append_assoc]
    rfl
  have habs : p.absolute b = b.normalize := by
    unfold Project.absolute
    rw [if_pos (isAbsolute_iff_components.2 ⟨_, hbs.2⟩)]
  have hhas := Disk.has_normalize hd.rooted hbs hf
  intro located added hl
  unfold locateUnit at hl
  rw [habs, if_pos hhas] at hl
  obtain ⟨rfl, -⟩ := Prod.mk.inj (Except.ok.inj hl)
  rw [same_iff, components_normalize, normalComponents_of_normal hbs.normal]

end

/-! ## §5. Classification and moves. -/

/-- **Classification agrees with what a move takes along and refuses.**  A file with a source
    extension is a spec file exactly if a unit beside it, of some name, takes it along through one
    of the suffixes.  If the names of barrels and the extensions have no slashes, what is found as
    the barrel of a directory is known as a barrel, and a path that names it is refused. -/
theorem Project.classification_agrees (p : Project)
    (hexts : ∀ e ∈ p.extensions, e ≠ "" ∧ '.' ∉ e.toList)
    (hnames : ∀ n ∈ p.config.barrelNames, n ≠ "") :
    (∀ (f : Path) (ext : String), f.extension? = some ext → ext ∈ p.extensions →
      (p.isSpec f = true ↔ ∃ (n s : String) (u : MovedUnit), n ≠ "" ∧
        s ∈ p.config.specSuffixes ∧ u.BesideFile p f n ∧ u.CompanionThrough f s)) ∧
    ((∀ e ∈ p.extensions, '/' ∉ e.toList) → (∀ n ∈ p.config.barrelNames, '/' ∉ n.toList) →
      ∀ (d : Disk) (dir b : Path), findBarrel d p dir = some b →
        p.isBarrel b = true ∧
        (∀ old new, (∀ located added,
            locateUnit d p old = .ok (located, added) → located.same b = true) →
          ∃ r, Preparation.check d p old new = .error (.refused r)) ∧
        (d.WellFormed → dir.Direct →
          ∀ new, ∃ r, Preparation.check d p b new = .error (.refused r))) := by
  have hdots : ∀ e ∈ p.extensions, '.' ∉ e.toList := fun e he => (hexts e he).2
  constructor
  · intro f ext hext hmem
    obtain ⟨stem, hstem, hf⟩ := exists_of_extension? hext
    rw [Project.isSpec_iff hdots hf hstem hmem]
    have hslash := (isName_of_fileName? hf).2.2.2
    rw [String.toList_append, String.toList_append, List.mem_append, List.mem_append, not_or,
      not_or] at hslash
    constructor
    · -- a unit with the name before the suffix takes the file along
      rintro ⟨n, s, hn, hs, rfl⟩
      have hnslash : '/' ∉ n.toList := by
        intro hin
        exact hslash.1 (by simp [hin])
      obtain ⟨u, hu⟩ :=
        MovedUnit.exists_besideFile hn hnslash hdots hmem (hexts ext hmem).1 hslash.2.2 hf
      refine ⟨n, s, u, hn, hs, hu, ?_, _, hf, ?_⟩
      · unfold MovedUnit.travels
        rw [hu.relocate hs hdots hmem hn hf]
        rfl
      · rw [hu.extensions, stripSourceExtension_append hstem hmem hdots, hu.name]
    · -- what the file has before its extension is the name, a dot and the suffix
      rintro ⟨n, s, u, hn, hs, hu, -, name, hname, hstrip⟩
      obtain rfl := Option.some.inj (hf.symm.trans hname)
      rw [hu.extensions, stripSourceExtension_append hstem hmem hdots, hu.name] at hstrip
      exact ⟨n, s, hn, hs, hstrip⟩
  · intro hextslash hnameslash d dir b h
    obtain ⟨hb, hf, name, hname, hjoin⟩ :=
      isBarrel_of_findBarrel hexts hnames hextslash hnameslash h
    refine ⟨hb, ?_, ?_⟩
    · intro old new hold
      exact refused_of_isBarrel hb hf hold new
    · intro hd hdir new
      exact refused_of_isBarrel hb hf (locateUnit_barrel hd hdir hf hname hjoin) new

/-- A disk with an index file in the directory `sub`. -/
def indexedDisk : Disk where
  top := .directory [("lib", .directory []),
    ("sub", .directory [("index.ts", .file (.text ""))])]
  here := []

theorem wellFormed_indexedDisk : indexedDisk.WellFormed := by
  refine ⟨?_, _, rfl⟩
  simp only [indexedDisk, Node.WellFormed, Node.AllWellFormed]
  decide

theorem small_project_classified :
    (∀ e ∈ smallProject.extensions, e ≠ "" ∧ '.' ∉ e.toList) ∧
      (∀ n ∈ smallProject.config.barrelNames, n ≠ "") ∧
      (∃ (n s : String) (u : MovedUnit), n ≠ "" ∧ s ∈ smallProject.config.specSuffixes ∧
        u.BesideFile smallProject ⟨"/lib/a.spec.spec.ts"⟩ n ∧
        u.CompanionThrough ⟨"/lib/a.spec.spec.ts"⟩ s) ∧
      findBarrel indexedDisk smallProject ⟨"/sub"⟩ = some ⟨"/sub/index.ts"⟩ ∧
      ∃ r, Preparation.check indexedDisk smallProject ⟨"/sub/index.ts"⟩ ⟨"/lib/index.ts"⟩
        = .error (.refused r) := by
  have hexts : ∀ e ∈ smallProject.extensions, e ≠ "" ∧ '.' ∉ e.toList := by decide
  have hnames : ∀ n ∈ smallProject.config.barrelNames, n ≠ "" := by decide
  have hfound : findBarrel indexedDisk smallProject ⟨"/sub"⟩ = some ⟨"/sub/index.ts"⟩ := by
    decide +kernel
  obtain ⟨hspec, hbarrel⟩ := Project.classification_agrees smallProject hexts hnames
  have hcompanion := (hspec ⟨"/lib/a.spec.spec.ts"⟩ "ts" (by decide +kernel) (by decide)).1
    (by decide +kernel)
  obtain ⟨-, -, hrefused⟩ := hbarrel (by decide) (by decide) _ _ _ hfound
  exact ⟨hexts, hnames, hcompanion, hfound,
    hrefused wellFormed_indexedDisk (by decide +kernel) ⟨"/lib/index.ts"⟩⟩

/-- A project whose barrels are index files in directories named `sub`. -/
def slashedProject : Project := .ofRoot ⟨"/"⟩ { barrelNames := ["sub/index"] }

/-- **A barrel found under a name with a slash is moved.**  The name leads to a file in another
    directory, which is not known as a barrel by its own name. -/
theorem slashed_barrel_moves :
    (∀ e ∈ slashedProject.extensions, e ≠ "" ∧ '.' ∉ e.toList) ∧
      (∀ n ∈ slashedProject.config.barrelNames, n ≠ "") ∧
      findBarrel indexedDisk slashedProject ⟨"/"⟩ = some ⟨"/sub/index.ts"⟩ ∧
      slashedProject.isBarrel ⟨"/sub/index.ts"⟩ = false ∧
      Preparation.check indexedDisk slashedProject ⟨"/sub/index.ts"⟩ ⟨"/lib/index.ts"⟩
        = .ok (⟨"/sub/index.ts"⟩, ⟨"/lib/index.ts"⟩,
          ⟨"lib", .across, 1, ["sub"], ["lib"]⟩) := by
  decide +kernel

end ModuleMove
