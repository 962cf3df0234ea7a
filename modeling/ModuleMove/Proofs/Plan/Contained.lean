import ModuleMove.Proofs.Plan.Lossless

/-!
# CONTAINED MOVES — nothing outside the root of a project is touched

What a plan edits are scanned files, and a scan finds them below the root.  What it renames is put
together from a directory and a name, and the directory may be spelled with detours: an extension
may have slashes and `..` in it.  Leaving such a directory never leads further up than leaving it
without its detours, so that each end of a rename stays below the root all the same.

Main statements:
  * `Path.Reaches.applyTo` — how deep a delta leads.
  * `Preparation.reaches_unit` — how deep both directories of a unit lie.
  * `move_contained` — what a move edits, renames and changes.
-/

namespace ModuleMove

open ModuleMove.Path ModuleMove.MovedUnit

namespace Path

/-! ## §1. How deep a path leads. -/

/-- Without its detours, a path leads `k` names below a root, or deeper. -/
def Reaches (root : Path) (k : Nat) (q : Path) : Prop :=
  ∃ ns, root.GoesOn q.normalize ns ∧ k ≤ ns.length

variable {root q r : Path} {rs : List String} {k : Nat} {s : String}

theorem Reaches.mono {m : Nat} (h : root.Reaches k q) (hm : m ≤ k) : root.Reaches m q := by
  obtain ⟨ns, hns, hk⟩ := h
  exact ⟨ns, hns, hm.trans hk⟩

theorem Reaches.inside (h : root.Reaches (k + 1) q) : Delta.inside root q.normalize = true := by
  obtain ⟨ns, hns, hk⟩ := h
  rcases List.eq_nil_or_concat' ns with rfl | ⟨ns, s, rfl⟩
  · simp at hk
  · exact Delta.inside_iff.2 ⟨_, _, hns.2.trans (by rw [List.map_append]; rfl)⟩

/-- Detours do not change what a path leads to when a component is put behind it. -/
theorem components_normalize_concat {c : Component} (h : q.components = r.components ++ [c]) :
    q.normalize.components = settle r.normalize.components [c] := by
  rw [components_normalize, components_normalize, h, normalComponents_append]

theorem Reaches.join (h : root.Reaches k q) (hs : IsName s) :
    root.Reaches (k + 1) (q.join ⟨s⟩) := by
  obtain ⟨ns, hns, hk⟩ := h
  refine ⟨ns ++ [s], ⟨List.forall_mem_append.2 ⟨hns.1, List.forall_mem_singleton.2 hs⟩, ?_⟩,
    by simpa using hk⟩
  rw [components_normalize_concat (components_join_name q hs), settle_name, hns.2, List.map_append,
    List.append_assoc]
  rfl

/-- What leads below a root has a parent. -/
theorem Reaches.exists_parent (hroot : top.GoesOn root rs) (h : root.Reaches (k + 1) q) :
    ∃ r, q.parent? = some r := by
  obtain ⟨ns, hns, hk⟩ := h
  rcases parent?_cases q with ⟨-, hq⟩ | ⟨r, -, -, hr, -⟩
  · -- a path of one component at most leads to the top of the tree, or nowhere
    have hlen := congrArg List.length hns.2
    have hshort : (normalComponents q.components).length ≤ 1 := by
      rcases hq with hq | hq <;> rw [hq] <;> decide
    rw [← components_normalize, hlen, hroot.2, components_top] at hshort
    simp only [List.length_append, List.length_map, List.length_singleton] at hshort
    omega
  · exact ⟨r, hr⟩

/-- **Leaving a directory leads up by one name at most**: if the component that is taken away is a
    step up, it leads down. -/
theorem Reaches.parent (hroot : top.GoesOn root rs) (habs : q.isAbsolute = true)
    (h : root.Reaches (k + 1) q) (hq : q.parent? = some r) : root.Reaches k r := by
  obtain ⟨ns, hns, hk⟩ := h
  obtain ⟨c, hne, hc⟩ := components_of_parent? hq
  obtain ⟨ms, hms⟩ := goesOn_normalize (isAbsolute_of_parent? habs hq)
  obtain ⟨ns, t, rfl⟩ := (List.eq_nil_or_concat' ns).resolve_left (by rintro rfl; simp at hk)
  rw [List.length_append, List.length_singleton] at hk
  obtain ⟨hnames, heq⟩ := hns
  rw [components_normalize_concat hc] at heq
  cases c with
  | root => exact absurd rfl hne
  | current =>
    have hcurrent : ∀ cs, settle cs [.current] = cs := List.reverse_reverse
    rw [hcurrent] at heq
    exact ⟨ns ++ [t], ⟨hnames, heq⟩, by simp; omega⟩
  | up =>
    rw [hms.2, components_top] at heq
    rcases List.eq_nil_or_concat' ms with rfl | ⟨ms, u, rfl⟩
    · have hlen := congrArg List.length heq
      rw [hroot.2] at hlen
      simp [settle, pushComponent, components_top] at hlen
    · have hlast : ∀ l : List String, (l ++ [u]).map Component.name
          = l.map Component.name ++ [.name u] := fun _ => List.map_append
      rw [hlast, ← List.append_assoc, settle_up_name] at heq
      refine ⟨ns ++ [t] ++ [u], ⟨?_, ?_⟩, by simp; omega⟩
      · exact List.forall_mem_append.2 ⟨hnames, List.forall_mem_singleton.2 (hms.1 u (by simp))⟩
      · rw [hms.2, components_top, hlast, hlast, ← List.append_assoc, ← List.append_assoc, ← heq]
  | name u =>
    rw [settle_name, List.map_append, ← List.append_assoc] at heq
    obtain ⟨heq, -⟩ := List.append_inj' heq rfl
    exact ⟨ns, ⟨fun s hs => hnames s (List.mem_append_left _ hs), heq⟩, by omega⟩

/-- **Where a delta leads from a directory deep enough**: it is left as often as the delta says, and
    what the delta adds lies below the root again. -/
theorem Reaches.applyTo {δ : Delta} (hroot : top.GoesOn root rs) (habs : q.isAbsolute = true)
    (ha : ∀ s ∈ δ.added, IsName s) (h : root.Reaches (k + δ.removed.length) q) :
    root.Reaches (k + δ.added.length) (δ.applyTo q) := by
  have hup : ∀ (l : List String) (q : Path), q.isAbsolute = true →
      root.Reaches (k + l.length) q → root.Reaches k (l.foldl (fun q _ => q.parent?.getD q) q) := by
    intro l
    induction l with
    | nil => exact fun q _ h => h
    | cons a l ih =>
      intro q habs h
      obtain ⟨r, hr⟩ := h.exists_parent hroot
      rw [List.foldl_cons, hr]
      exact ih r (isAbsolute_of_parent? habs hr) (h.parent hroot habs hr)
  have hdown : ∀ (l : List String), (∀ s ∈ l, IsName s) → ∀ (q : Path) (k : Nat),
      root.Reaches k q → root.Reaches (k + l.length) (l.foldl (fun q s => q.join ⟨s⟩) q) := by
    intro l
    induction l with
    | nil => exact fun _ q k h => h
    | cons a l ih =>
      intro hl q k h
      obtain ⟨ha, hl⟩ := List.forall_mem_cons.1 hl
      have := ih hl _ _ (h.join ha)
      rwa [Nat.add_right_comm] at this
  exact hdown δ.added ha _ k (hup δ.removed q habs h)

end Path

/-! ## §2. What is renamed. -/

namespace Preparation

variable {d : Disk} {p : Project} {old new : Path} {x : Preparation} {rs : List String}

/-- Both ends of a checked move lie below the root, the old one deep enough to be left. -/
theorem reaches_of_check {old' new' : Path} {δ : Delta} (hroot : p.root.Straight rs)
    (h : check d p old new = .ok (old', new', δ)) :
    p.root.Reaches (δ.removed.length + 1) old' ∧ p.root.Reaches (δ.added.length + 1) new' := by
  obtain ⟨added, hl, hnew, hδ, -⟩ := check_eq_ok h
  obtain ⟨cs, xs, ys, a, b, ho, hn, hr, ha⟩ := Delta.compute_eq_ok hδ
  have habs : new'.isAbsolute = true := by
    rw [hnew]
    exact isAbsolute_completed hroot new added
  have hnormal : p.root.normalize.components = p.root.components := by
    rw [components_normalize, normalComponents_of_normal hroot.goesOn.normal]
  -- behind the root, an absolute path without detours has names alone
  have hreach : ∀ {q : Path} {zs : List Component} {c : Component}, q.isAbsolute = true →
      q.normalize.components = p.root.normalize.components ++ (cs ++ zs ++ [c]) →
      p.root.Reaches (zs.length + 1) q := by
    intro q zs c hq hc
    obtain ⟨ms, hms⟩ := goesOn_normalize hq
    rw [hnormal] at hc
    obtain ⟨ns, hns, hgo⟩ := GoesOn.of_append hroot.goesOn hms hc
    refine ⟨ns, hgo, ?_⟩
    have hlen := congrArg List.length hns
    simp only [List.length_append, List.length_map, List.length_singleton] at hlen
    omega
  have hlength : ∀ {l : List String} {zs : List Component}, l = textsOf zs →
      l.length = zs.length := by
    rintro l zs rfl
    exact List.length_map _
  rw [hlength hr, hlength ha]
  exact ⟨hreach (isAbsolute_of_check hroot h) ho, hreach habs hn⟩

/-- **How deep both directories of a unit lie.** -/
theorem reaches_unit (hroot : p.root.Straight rs) (h : make d p old new = .ok x) :
    p.root.Reaches 0 x.unit.oldParent ∧ p.root.Reaches 0 x.unit.newParent := by
  obtain ⟨old', new', δ, hc, hu, -⟩ := make_eq_ok h
  obtain ⟨added, -, hnew, hδ, -⟩ := check_eq_ok hc
  obtain ⟨hold, -⟩ := reaches_of_check hroot hc
  have habs := isAbsolute_of_check hroot hc
  obtain ⟨q, hq⟩ := hold.exists_parent hroot.goesOn
  have hleave : x.unit.oldParent = q := by
    rw [hu]
    show old'.parent?.getD p.root = q
    rw [hq]
    rfl
  have henter : x.unit.newParent = δ.applyTo q := by
    rw [← hleave, hu]
    rfl
  have hparent := hold.parent hroot.goesOn habs hq
  have hnames : ∀ s ∈ δ.added, IsName s := by
    refine isName_of_mem_added hroot ?_ hδ
    rw [hnew]
    exact isAbsolute_completed hroot new added
  rw [hleave, henter]
  rw [← Nat.zero_add δ.removed.length] at hparent
  exact ⟨hparent.mono (Nat.zero_le _),
    (hparent.applyTo hroot.goesOn (isAbsolute_of_parent? habs hq) hnames).mono (Nat.zero_le _)⟩

/-- What is renamed with a file are files. -/
theorem hasFile_of_mem_moves (hd : d.WellFormed) (hroot : p.root.Straight rs)
    (h : make d p old new = .ok x) (hs : x.unit.style = .file) {m : Path × Path}
    (hm : m ∈ x.plan.moves) : d.hasFile m.1 = true := by
  obtain ⟨as, G, xs, hleave, -, hxs, hrenamable⟩ := exists_renamesOf hd hroot h hs
  rw [hxs] at hm
  obtain ⟨y, hy, rfl⟩ := List.mem_map.1 hm
  obtain ⟨hname, c, hc⟩ := hrenamable.source y hy
  have hfile := Node.look?_eq_file.1 (Disk.fileAt_eq_some.1 hc)
  exact Disk.hasFile_iff.2 ⟨_, c, Disk.locate_join hleave hd.rooted.keeps hname hfile⟩

/-- **Both ends of a rename lie below the root, and no directory is moved into itself.** -/
theorem moves_inside (hd : d.WellFormed) (hroot : p.root.Straight rs)
    (h : make d p old new = .ok x) (h1 : x.unit.newName ≠ ".") (h2 : x.unit.newName ≠ "..") :
    ∀ m ∈ x.plan.moves, Delta.inside p.root m.1.normalize = true ∧
      Delta.inside p.root m.2.normalize = true ∧
      (d.hasDirectory m.1 = true → m.2.isUnder m.1 = false) := by
  obtain ⟨hleave, henter⟩ := reaches_unit hroot h
  have hmoves := (moves_of_make h).1
  have hn := isName_newName_of_make hd hroot h h1 h2
  intro m hm
  cases hs : x.unit.style with
  | directory =>
    rw [moves_of_directory hs hmoves, List.mem_singleton] at hm
    obtain ⟨old', new', δ, hc, hu, -⟩ := make_eq_ok h
    obtain ⟨added, -, -, -, hk⟩ := check_eq_ok hc
    obtain ⟨as, a, gs, hold, hmodule, hdir, hnew⟩ := exists_straight_of_directory hd hroot h hs
    have hat : x.unit.old = old' ∧ x.unit.new = new' := by
      rw [hu]
      exact ⟨rfl, rfl⟩
    rw [hm]
    refine ⟨?_, (henter.join hn).inside, fun _ => ?_⟩
    · rw [hat.1]
      exact (reaches_of_check hroot hc).1.inside
    · show x.unit.newModule.isUnder x.unit.old = false
      rw [hnew, hat.1, hat.2]
      exact not_isUnder_of_directory hc (hu ▸ hs)
  | file =>
    obtain ⟨es, hes, hmem⟩ := list_of_make h hs
    obtain ⟨e, he, t, ht, rfl⟩ := (hmem m).1 hm
    have hname := isName_of_mem_list hd hes he
    refine ⟨(hleave.join hname).inside, (henter.join (isName_entryName? hn hname ht)).inside,
      fun hdir => ?_⟩
    obtain ⟨pl, c, hl⟩ := Disk.hasFile_iff.1 (hasFile_of_mem_moves hd hroot h hs hm)
    obtain ⟨ql, fs, hl'⟩ := Disk.hasDirectory_iff.1 hdir
    cases hl.symm.trans hl'

/-! ## §3. What is edited. -/

/-- **What is edited is a file that has been found and scanned**, below the root by its names. -/
theorem target_of_make (hd : d.WellFormed) (h : make d p old new = .ok x) {e : Edit}
    (he : e ∈ x.plan.edits) : ∃ found f, discover d p = .ok found ∧
      (∃ g ∈ found.files, g.1 = f.path) ∧ scanFile d f.path = .ok f ∧
      f.path.same e.target = true ∧ Delta.inside p.root e.target = true := by
  have hx := sound_of_make hd h
  obtain ⟨-, hp, -⟩ := unit_of_make h
  obtain ⟨found, hfound, hindex⟩ := index_of_make h
  obtain ⟨f, s, hf⟩ := hx.placed he
  have hmem := hf.shows.mem
  obtain ⟨ns, hns, hne⟩ := hx.index.goesOn f hmem
  rw [hindex] at hmem
  obtain ⟨-, ⟨t, ht, hscan⟩, hlisted⟩ :=
    Index.path_of_mem_goodScans (Index.mem_scanned_ofScans.1 hmem)
  refine ⟨found, f, hfound, hlisted, ?_, hf.same, ?_⟩
  · unfold scanFile
    rw [ht]
    exact hscan
  · obtain ⟨ns, n, rfl⟩ := (List.eq_nil_or_concat' ns).resolve_left hne
    have hcomp := same_iff.1 hf.same
    rw [hns.2, hp, List.map_append] at hcomp
    exact Delta.inside_iff.2 ⟨_, _, hcomp.symm⟩

end Preparation

/-! ## §4. The whole move. -/

/-- A command that plans edits only, or has no plan, changes nothing. -/
theorem runMove_unchanged {d : Disk} {p : Project} {old new : Path} {dryRun noMove : Bool}
    {format : Format} (h : (p.config.dryRun || dryRun) = true ∨
      ∃ f, carryOut d { p with config := { p.config with dryRun := p.config.dryRun || dryRun } }
        (Command.absolute d old) (Command.absolute d new) = .error f) :
    (Command.runMove d p old new dryRun noMove format).2 = d := by
  unfold Command.runMove
  simp only
  split
  · rfl
  · rename_i r e hr
    rcases h with hdry | ⟨f, hf⟩
    · obtain ⟨-, hrdry, heq⟩ := carryOut_eq_ok hr
      rw [if_pos hdry] at heq
      rw [hrdry, if_pos (by rw [show _ = true from hdry]; rfl)]
      exact (Prod.ext_iff.1 heq).2
    · rw [hf] at hr
      cases hr

/-- **A move stays in its project.**  What is edited is a file that has been found and scanned below
    the root.  Both ends of what is renamed lie below the root, and no directory goes into itself.
    Nothing is seen to change but places of files that the plan edits, with success; and nothing
    changes at all if edits are planned only, or if there is no plan. -/
theorem move_contained {d : Disk} {root : Path} {c : Config} {old new : Path} (hd : d.WellFormed)
    (habs : root.isAbsolute = true) :
    (∀ pl, plan d (.ofRoot root c) old new = .ok pl →
      (∀ e ∈ pl.edits, ∃ found f, discover d (.ofRoot root c) = .ok found ∧
        (∃ g ∈ found.files, g.1 = f.path) ∧ scanFile d f.path = .ok f ∧
        f.path.same e.target = true ∧ Delta.inside root.normalize e.target = true) ∧
      ((MovedUnit.make d (.ofRoot root c) pl.old pl.new pl.delta).newName ≠ "." →
        (MovedUnit.make d (.ofRoot root c) pl.old pl.new pl.delta).newName ≠ ".." →
        ∀ m ∈ pl.moves, Delta.inside root.normalize m.1.normalize = true ∧
          Delta.inside root.normalize m.2.normalize = true ∧
          (d.hasDirectory m.1 = true → m.2.isUnder m.1 = false))) ∧
    (∀ r e, carryOut d (.ofRoot root c) old new = .ok (r, e) →
      (c.dryRun = true → e = d) ∧
      ∀ ks, e.top.look? ks ≠ d.top.look? ks → ∃ o ∈ r.outcomes, o.status = .succeeded ∧
        (∃ b ∈ r.plan.edits, b.target = o.path) ∧ ∃ n, d.locate o.path = .ok (ks, n)) ∧
    ∀ dryRun noMove format,
      (c.dryRun || dryRun) = true ∨
        (∃ f, carryOut d (.ofRoot root { c with dryRun := c.dryRun || dryRun })
          (Command.absolute d old) (Command.absolute d new) = .error f) →
      (Command.runMove d (.ofRoot root c) old new dryRun noMove format).2 = d := by
  obtain ⟨rs, hroot⟩ := Project.straight_ofRoot habs c
  refine ⟨fun pl hpl => ?_, fun r e h => ⟨fun hdry => ?_, fun ks hks => ?_⟩,
    fun dryRun noMove format h => ?_⟩
  · obtain ⟨x, hx, rfl⟩ := Preparation.plan_eq_ok hpl
    obtain ⟨-, -, hunit⟩ := Preparation.unit_of_make hx
    rw [hunit, ← Project.root_ofRoot root c]
    exact ⟨fun e he => Preparation.target_of_make hd hx he, Preparation.moves_inside hd hroot hx⟩
  · obtain ⟨-, -, heq⟩ := carryOut_eq_ok h
    rw [if_pos (show (Project.ofRoot root c).config.dryRun = true from hdry)] at heq
    exact (Prod.ext_iff.1 heq).2
  · obtain ⟨-, -, heq⟩ := carryOut_eq_ok h
    split at heq
    · obtain ⟨-, rfl⟩ := Prod.mk.inj heq
      exact absurd rfl hks
    · obtain ⟨houtcomes, he⟩ := Prod.ext_iff.1 heq
      simp only at houtcomes he
      rw [he] at hks
      rw [houtcomes]
      obtain ⟨⟨t, es⟩, hg, o, ho, hpath, hok, hn⟩ := look?_editFiles hd hks
      obtain ⟨-, b, hb, hbt⟩ := mem_editsByFile hg
      rw [← hpath] at hn
      exact ⟨o, ho, hok, ⟨b, hb, hbt.trans hpath.symm⟩, hn⟩
  · exact runMove_unchanged h

/-! ## §5. A project with something beside it. -/

/-- A disk with a source file outside of a project, which imports a directory of the project. -/
def fencedDisk : Disk where
  top := .directory [("out.ts", .file (.text "import './proj/lib';\n")),
    ("proj", .directory [("a.ts", .file (.text "import './lib';\n")), ("lib", .directory []),
      ("q", .directory [])])]
  here := []

theorem wellFormed_fencedDisk : fencedDisk.WellFormed := by
  refine ⟨?_, _, rfl⟩
  simp only [fencedDisk, Node.WellFormed, Node.AllWellFormed]
  decide

/-- The project on the fenced disk. -/
def fencedProject : Project := .ofRoot ⟨"/proj"⟩ Config.default

theorem exists_plan_fencedDisk : ∃ pl,
    plan fencedDisk fencedProject ⟨"lib"⟩ ⟨"../proj/q/./lib"⟩ = .ok pl ∧
      (pl.edits, pl.moves, (MovedUnit.make fencedDisk fencedProject pl.old pl.new pl.delta).newName)
        = ([⟨⟨"/proj/a.ts"⟩, 10, .insert "q/"⟩], [(⟨"/proj/lib"⟩, ⟨"/proj/q/lib"⟩)], "lib") :=
  exists_plan_of_map (by decide +kernel)

/-- What is moved stays in the project, however its destination is spelled, and the file outside of
    it is not seen to change. -/
theorem fenced_move_contained : ∃ pl,
    plan fencedDisk fencedProject ⟨"lib"⟩ ⟨"../proj/q/./lib"⟩ = .ok pl ∧
      (∀ e ∈ pl.edits, Delta.inside ⟨"/proj"⟩ e.target = true) ∧
      (∀ m ∈ pl.moves, Delta.inside ⟨"/proj"⟩ m.2.normalize = true ∧ m.2.isUnder m.1 = false) ∧
      (applyEdits fencedDisk pl.edits).2.top.look? ["out.ts"]
        = fencedDisk.top.look? ["out.ts"] := by
  obtain ⟨pl, hpl, heq⟩ := exists_plan_fencedDisk
  obtain ⟨hedits, hmoves, hname⟩ : _ ∧ _ ∧ _ := by simpa only [Prod.mk.injEq] using heq
  obtain ⟨hplan, hcarry, -⟩ := @move_contained fencedDisk ⟨"/proj"⟩ Config.default ⟨"lib"⟩
    ⟨"../proj/q/./lib"⟩ wellFormed_fencedDisk rfl
  obtain ⟨htargets, hends⟩ := hplan pl hpl
  change (MovedUnit.make _ (.ofRoot _ _) _ _ _).newName = _ at hname
  rw [hname] at hends
  refine ⟨pl, hpl, fun e he => ?_, fun m hm => ?_, ?_⟩
  · obtain ⟨-, -, -, -, -, -, hinside⟩ := htargets e he
    exact hinside
  · obtain ⟨-, hgoal, hinto⟩ := hends (by decide) (by decide) m hm
    refine ⟨hgoal, hinto ?_⟩
    rw [hmoves, List.mem_singleton] at hm
    rw [hm]
    rfl
  · by_contra hne
    obtain ⟨-, hseen⟩ := hcarry _ _ (carryOut_of_plan hpl rfl)
    obtain ⟨o, -, -, ⟨b, hb, hbo⟩, n, hn⟩ := hseen _ hne
    rw [hedits, List.mem_singleton] at hb
    have hplace : (fencedDisk.locate ⟨"/proj/a.ts"⟩).map (·.1) = .ok ["proj", "a.ts"] := rfl
    rw [← hbo, hb] at hn
    rw [hn] at hplace
    have hnames : ["out.ts"] = ["proj", "a.ts"] := Except.ok.inj hplace
    exact absurd hnames (by decide)

end ModuleMove
