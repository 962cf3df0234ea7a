import ModuleMove.Command.Run
import ModuleMove.Proofs.Plan.CarryOut
import ModuleMove.Proofs.Plan.Renaming
import ModuleMove.Proofs.Unit.Straight

/-!
# RENAMES OF A PLAN — when what has been planned can be renamed

Before anything is planned, the destinations are found free.  That is not all that renaming needs:
above a destination, a file may stand where a directory would have to be.  Nothing else is in the
way, before the edits of the plan and after them.

Main statements:
  * `Preparation.movable_of_make` — the renames of a plan can be made if no file is in the way.
  * `renames_of_plan` — they succeed exactly if no file lies above a destination, and a move that
    fails with nothing in its way has changed nothing.
  * `edited_below_file` — a move below a file is planned, edits files, and fails.
-/

namespace ModuleMove

open ModuleMove.Path ModuleMove.MovedUnit

namespace Preparation

variable {d : Disk} {p : Project} {old new : Path} {x : Preparation} {rs : List String}

/-! ## §1. What has been checked. -/

/-- The renames of a plan are those of its unit, and nothing is at their destinations. -/
theorem moves_of_make (h : make d p old new = .ok x) :
    x.unit.moves d = .ok x.plan.moves ∧ ∀ m ∈ x.plan.moves, d.has m.2 = false := by
  obtain ⟨-, -, -, -, -, -, -, hdisk, hdest, -⟩ := make_eq_ok h
  unfold checkDestinations at hdest
  split at hdest
  · cases hdest
  · rename_i ms hms
    -- the plan asks for the renames again, and gets those that have been checked
    have hplan : x.plan.moves = ms := by
      show (x.unit.moves x.disk).toOption.getD [] = ms
      rw [hdisk, hms]
      rfl
    rw [hplan]
    refine ⟨hms, ?_⟩
    split at hdest
    · cases hdest
    · rename_i hnone
      intro m hm
      simpa using List.find?_eq_none.1 hnone m hm

/-- The directory that a file is moved in, and the files that are renamed in it. -/
theorem list_of_make (h : make d p old new = .ok x) (hs : x.unit.style = .file) :
    ∃ es, d.list x.unit.oldParent = .ok es ∧ ∀ m, m ∈ x.plan.moves ↔ ∃ e ∈ es, ∃ t,
      x.unit.entryName? e = some t ∧
        m = (x.unit.oldParent.join ⟨e.1⟩, x.unit.newParent.join ⟨t⟩) :=
  mem_moves_of_file hs (moves_of_make h).1

/-- What is listed in a straight directory is in it. -/
theorem find?_of_list {q : Path} {ns : List String} {es : List (String × Node)} (hd : d.Rooted)
    (hq : q.Straight ns) (h : d.list q = .ok es) : d.top.find? ns = some (.directory es) := by
  obtain ⟨pl, hl⟩ := Disk.locate_of_list h
  obtain ⟨rfl, hfind⟩ := (Disk.locate_straight hd hq).1 hl
  exact hfind

/-- A file that is renamed is there. -/
theorem look?_of_mem_moves {ns : List String} {e : String × Node} {es : List (String × Node)}
    (hd : d.Rooted) (hdir : d.top.find? ns = some (.directory es)) (he : e ∈ es) {t : String}
    (ht : x.unit.entryName? e = some t) : ∃ c, d.top.look? (ns ++ [e.1]) = some (some c) := by
  obtain ⟨⟨c, hc⟩, -⟩ := entryName?_eq_some ht
  refine ⟨c, Node.look?_eq_file.2 ?_⟩
  have hwell := hd.tree.find? hdir
  rw [Node.WellFormed] at hwell
  obtain ⟨name, n⟩ := e
  rw [Node.find?_append, hdir]
  show (Node.child? name es).bind some = _
  rw [Node.child?_of_mem he hwell.1]
  exact congrArg some hc

/-- The places that a plan renames, and those that it renames them to, are straight; they lie in
    one directory each. -/
theorem exists_straight_moves (hd : d.WellFormed) (hroot : p.root.Straight rs)
    (hexts : ∀ ext ∈ p.extensions, '/' ∉ ext.toList) (h : make d p old new = .ok x)
    (hn : IsName x.unit.newName) : ∃ as gs, x.unit.oldParent.Straight as ∧
      x.unit.newParent.Straight gs ∧
      ∀ m ∈ x.plan.moves, (∃ a, m.1.Straight (as ++ [a])) ∧ ∃ b, m.2.Straight (gs ++ [b]) := by
  obtain ⟨old', new', δ, hc, hu, -⟩ := make_eq_ok h
  obtain ⟨as, a, gs, hold, hleave, henter⟩ := exists_straight_unit hd.rooted hroot hexts hc
  have hmoves := (moves_of_make h).1
  rw [← hu] at hleave henter
  refine ⟨as, gs, hleave, henter, fun m hm => ?_⟩
  cases hs : x.unit.style with
  | directory =>
    rw [moves_of_directory hs hmoves, List.mem_singleton] at hm
    rw [hm]
    have hat : x.unit.old = old' := by
      rw [hu]
      rfl
    exact ⟨⟨a, hat ▸ hold⟩, _, henter.join hn⟩
  | file =>
    obtain ⟨es, hes, hmem⟩ := list_of_make h hs
    obtain ⟨e, he, t, ht, rfl⟩ := (hmem m).1 hm
    have hname := isName_of_mem_list hd hes he
    exact ⟨⟨_, hleave.join hname⟩, _, henter.join (isName_entryName? hn hname ht)⟩

/-- A directory that is moved is there, and it goes to the place that has been asked for. -/
theorem exists_straight_of_directory (hd : d.WellFormed) (hroot : p.root.Straight rs)
    (h : make d p old new = .ok x) (hs : x.unit.style = .directory) : ∃ as a gs,
      x.unit.old.Straight (as ++ [a]) ∧ x.unit.newModule.Straight (gs ++ [x.unit.newName]) ∧
        d.hasDirectory x.unit.old = true ∧ x.unit.newModule = x.unit.new := by
  obtain ⟨old', new', δ, hc, hu, -⟩ := make_eq_ok h
  rw [hu] at hs ⊢
  obtain ⟨as, a, gs, hold, -, henter⟩ := exists_straight_directory hroot hc hs
  have hn := isName_newName_of_directory hd hroot.goesOn hc hs
  exact ⟨as, a, gs, hold, henter.join hn, hasDirectory_of_style hs,
    newModule_of_directory hroot hc hs⟩

/-! ## §2. The renames can be made. -/

/-- Names that differ stand for places apart. -/
theorem apart_of_ne {ns : List String} {a b : String} (h : a ≠ b) :
    Disk.Apart (ns ++ [a]) (ns ++ [b]) := by
  have hlen : ∀ a b : String, (ns ++ [a]).length = (ns ++ [b]).length := by simp
  have hinj : ∀ {a b : String}, ns ++ [a] <+: ns ++ [b] → a = b := fun hle =>
    (List.cons.inj (List.append_cancel_left (hle.eq_of_length (hlen _ _)))).1
  exact ⟨fun hle => h (hinj hle), fun hle => h (hinj hle).symm⟩

/-- No new place lies in an old one: a directory is not moved into itself, and a file that is
    renamed would be in the way. -/
theorem not_into (hd : d.WellFormed) (hroot : p.root.Straight rs)
    (hexts : ∀ ext ∈ p.extensions, '/' ∉ ext.toList) (h : make d p old new = .ok x)
    (hn : IsName x.unit.newName)
    (hway : ∀ m ∈ x.plan.moves, d.Passable m.2.names.dropLast) :
    ∀ m ∈ x.plan.moves, ∀ k ∈ x.plan.moves, ¬ m.1.names <+: k.2.names := by
  obtain ⟨hmoves, hfree⟩ := moves_of_make h
  obtain ⟨as, gs, hleave, henter, hstraight⟩ := exists_straight_moves hd hroot hexts h hn
  intro m hm k hk hle
  obtain ⟨-, b, hb⟩ := hstraight k hk
  cases hs : x.unit.style with
  | directory =>
    rw [moves_of_directory hs hmoves, List.mem_singleton] at hm hk
    rw [hm, hk] at hle
    obtain ⟨old', new', δ, hc, hu, -⟩ := make_eq_ok h
    rw [hu] at hs hn
    have hunder := not_isUnder_of_directory hc hs
    obtain ⟨a, hold⟩ := (hstraight m (by
      rw [moves_of_directory (hu ▸ hs) hmoves, List.mem_singleton, hm])).1
    have hold' : old' = m.1 := by
      rw [hm, hu]
      rfl
    have hnew : new' = k.2 := by
      rw [hk, hu]
      exact (newModule_of_directory hroot hc hs).symm
    have hnames : m.1.names <+: k.2.names := by
      rw [hm, hk]
      exact hle
    rw [hold', hnew, Bool.eq_false_iff] at hunder
    apply hunder
    rw [hb.isUnder_iff hold]
    rw [hold.names_eq, hb.names_eq] at hnames
    exact hnames
  | file =>
    obtain ⟨es, hes, hmem⟩ := list_of_make h hs
    obtain ⟨e, he, t, ht, rfl⟩ := (hmem m).1 hm
    have hname := isName_of_mem_list hd hes he
    obtain ⟨c, hc⟩ :=
      look?_of_mem_moves hd.rooted (find?_of_list hd.rooted hleave hes) he ht
    -- the file would stand at the new place, which is free, or above it
    have hpass := hway k hk
    rw [hb.names_eq, List.dropLast_concat] at hpass
    rw [(hleave.join hname).names_eq, hb.names_eq] at hle
    rcases List.prefix_concat_iff.1 hle with heq | hle
    · have := hfree k hk
      rw [Disk.has_straight hd.rooted hb, ← heq, hc] at this
      cases this
    · exact hpass _ hle c hc

/-- The old places of what is renamed are apart, and so are the new ones. -/
theorem pairwise_apart_moves (hd : d.WellFormed) (hroot : p.root.Straight rs)
    (hexts : ∀ ext ∈ p.extensions, '/' ∉ ext.toList) (h : make d p old new = .ok x)
    (hn : IsName x.unit.newName) : x.plan.moves.Pairwise fun m k =>
      Disk.Apart m.1.names k.1.names ∧ Disk.Apart m.2.names k.2.names := by
  have hmoves := (moves_of_make h).1
  obtain ⟨as, gs, hleave, henter, -⟩ := exists_straight_moves hd hroot hexts h hn
  cases hs : x.unit.style with
  | directory =>
    rw [moves_of_directory hs hmoves]
    exact List.pairwise_singleton ..
  | file =>
    obtain ⟨es, hes, -⟩ := list_of_make h hs
    have hwell := hd.tree.find? (find?_of_list hd.rooted hleave hes)
    rw [Node.WellFormed] at hwell
    refine pairwise_moves_of_file (fun h => ⟨h.1.symm, h.2.symm⟩) hs hes hmoves hwell.1 ?_
    -- two entries of a directory have two names, and they get two new ones
    intro e he g hg hne t ht s hgs
    have hen := isName_of_mem_list hd hes he
    have hgn := isName_of_mem_list hd hes hg
    simp only [(hleave.join hen).names_eq, (hleave.join hgn).names_eq,
      (henter.join (isName_entryName? hn hen ht)).names_eq,
      (henter.join (isName_entryName? hn hgn hgs)).names_eq]
    exact ⟨apart_of_ne hne, apart_of_ne fun hts => hne (entryName?_inj ht (hts ▸ hgs))⟩

/-- **The renames of a plan can be made if no file is in the way.** -/
theorem movable_of_make (hd : d.WellFormed) (hroot : p.root.Straight rs)
    (hexts : ∀ ext ∈ p.extensions, '/' ∉ ext.toList) (h : make d p old new = .ok x)
    (hn : IsName x.unit.newName)
    (hway : ∀ m ∈ x.plan.moves, d.Passable m.2.names.dropLast) : d.Movable x.plan.moves := by
  obtain ⟨hmoves, hfree⟩ := moves_of_make h
  obtain ⟨as, gs, hleave, henter, hstraight⟩ := exists_straight_moves hd hroot hexts h hn
  have hnames : ∀ m ∈ x.plan.moves,
      m.1.Straight m.1.names ∧ m.2.Straight m.2.names := by
    intro m hm
    obtain ⟨⟨a, ha⟩, b, hb⟩ := hstraight m hm
    exact ⟨ha.names_eq ▸ ha, hb.names_eq ▸ hb⟩
  have hpair := pairwise_apart_moves hd hroot hexts h hn
  refine ⟨hd.rooted, hnames, ?_, ?_, hway, not_into hd hroot hexts h hn hway,
    hpair.imp fun h => h.1, hpair.imp fun h => h.2⟩
  -- the sources are there: a directory has been looked at, and files have been listed
  · intro m hm
    cases hs : x.unit.style with
    | directory =>
      obtain ⟨old', new', δ, -, hu, -⟩ := make_eq_ok h
      rw [hu] at hs
      have hdir : d.hasDirectory m.1 = true := by
        rw [moves_of_directory (hu ▸ hs) hmoves, List.mem_singleton] at hm
        rw [hm, hu]
        exact hasDirectory_of_style hs
      rw [(Disk.hasDirectory_straight hd.rooted (hnames m hm).1).1 hdir]
      simp
    | file =>
      obtain ⟨es, hes, hmem⟩ := list_of_make h hs
      obtain ⟨e, he, t, ht, rfl⟩ := (hmem m).1 hm
      obtain ⟨c, hc⟩ :=
        look?_of_mem_moves hd.rooted (find?_of_list hd.rooted hleave hes) he ht
      rw [(hleave.join (isName_of_mem_list hd hes he)).names_eq, hc]
      simp
  · intro m hm
    have := hfree m hm
    rw [Disk.has_straight hd.rooted (hnames m hm).2] at this
    simpa using this

/-! ## §3. Files above a destination. -/

/-- A free place has no file above it exactly if there is none at the directories on the way. -/
theorem passable_iff {q : Path} {ns : List String} {b : String} (hd : d.WellFormed)
    (hq : q.Straight (ns ++ [b])) (hfree : d.has q = false) :
    d.Passable ns ↔ ∀ r, q.isUnder r = true → d.hasFile r = false := by
  have htop : top.Straight [] := ⟨by simp, rfl⟩
  obtain ⟨es, hes⟩ := hd.top
  have hroot : d.locate top = .ok ([], .directory es) :=
    (Disk.locate_straight hd.rooted htop).2 ⟨rfl, by rw [← hes]; rfl⟩
  constructor
  · intro hpass r hunder
    rw [Bool.eq_false_iff]
    intro hfile
    obtain ⟨pl, c, hl⟩ := Disk.hasFile_iff.1 hfile
    obtain ⟨hne, -⟩ := Disk.locate_eq_ok hl
    -- whatever its spelling, the path of the file goes on from the root by the first names
    obtain ⟨ks, hks, hr⟩ : ∃ ks, ks <+: ns ++ [b] ∧ top.GoesOn r ks := by
      unfold isUnder at hunder
      rw [List.isPrefixOf_iff_prefix, hq.components] at hunder
      rcases List.prefix_cons_iff.1 hunder with h0 | ⟨cs, hcs, hpre⟩
      · exact absurd (components_eq_nil_iff.1 h0) hne
      · obtain ⟨ks, hks, rfl⟩ := List.prefix_map_iff.1 hpre
        exact ⟨ks, hks, fun s hs => hq.1 s (hks.subset hs), hcs⟩
    obtain ⟨-, hfind⟩ := Disk.place_of_goesOn hroot hr hl
    have hlook : d.top.look? ks = some (some c) := by
      rw [Node.look?_eq_file, hes]
      exact hfind
    rcases List.prefix_concat_iff.1 hks with rfl | hks
    · rw [Disk.has_straight hd.rooted hq, hlook] at hfree
      cases hfree
    · exact hpass ks hks c hlook
  -- a file on the way has a straight path of its own
  · intro hno ks hks c hc
    obtain ⟨r, hr⟩ := exists_straight fun s hs =>
      hq.1 s (List.mem_append_left _ (hks.subset hs))
    have hunder := (hq.isUnder_iff hr).2 (hks.trans (List.prefix_append ..))
    have hfile := (Disk.hasFile_straight hd.rooted hr).2 ⟨c, hc⟩
    rw [hno r hunder] at hfile
    cases hfile

theorem isName_newName_of_make {parse : Parser} (hd : d.WellFormed) (hroot : p.root.Straight rs)
    (h : make d p old new parse = .ok x) (h1 : x.unit.newName ≠ ".") (h2 : x.unit.newName ≠ "..") :
    IsName x.unit.newName := by
  obtain ⟨old', new', δ, hc, hu, -⟩ := make_eq_ok h
  rw [hu] at h1 h2 ⊢
  exact isName_newName hd hroot.goesOn hc h1 h2

/-- The renames of a plan that have been made could be made. -/
theorem movable_of_renameAll {e e' : Disk} (hd : d.WellFormed) (hroot : p.root.Straight rs)
    (hexts : ∀ ext ∈ p.extensions, '/' ∉ ext.toList) (h : make d p old new = .ok x)
    (hn : IsName x.unit.newName) (he : e.Rooted) (hs : d.SameShape e)
    (he' : renameAll e x.plan.moves = (.ok (), e')) :
    d.Movable x.plan.moves ∧ e'.Rooted ∧ e.Moved e' x.plan.moves := by
  obtain ⟨as, gs, -, -, hstraight⟩ := exists_straight_moves hd hroot hexts h hn
  -- the renames were made on another disk, on which the same places were taken
  have hway : ∀ m ∈ x.plan.moves, d.Passable m.2.names.dropLast := by
    intro m hm
    obtain ⟨-, b, hb⟩ := hstraight m hm
    rw [hb.names_eq, List.dropLast_concat, ← hs.passable_iff]
    exact Disk.passable_of_renameAll he (fun k hk => (hstraight k hk).2) he' hm
  have hmovable := movable_of_make hd hroot hexts h hn hway
  obtain ⟨e'', he'', hrooted, hmoved⟩ := (hmovable.of_sameShape he hs).exists_renameAll
  obtain rfl := (Prod.mk.inj (he'.symm.trans he'')).2
  exact ⟨hmovable, hrooted, hmoved⟩

/-- **The renames of a plan can be made, before the edits and after them, exactly if no file lies
    above a destination.** -/
theorem renameAll_iff {e : Disk} (hd : d.WellFormed) (hroot : p.root.Straight rs)
    (hexts : ∀ ext ∈ p.extensions, '/' ∉ ext.toList) (h : make d p old new = .ok x)
    (hn : IsName x.unit.newName) (he : e.Rooted) (hs : d.SameShape e) :
    (∃ e', renameAll e x.plan.moves = (.ok (), e')) ↔
      ∀ m ∈ x.plan.moves, ∀ q, m.2.isUnder q = true → d.hasFile q = false := by
  obtain ⟨-, hfree⟩ := moves_of_make h
  obtain ⟨as, gs, -, -, hstraight⟩ := exists_straight_moves hd hroot hexts h hn
  constructor
  · rintro ⟨e', he'⟩ m hm
    obtain ⟨-, b, hb⟩ := hstraight m hm
    have hway := (movable_of_renameAll hd hroot hexts h hn he hs he').1.way m hm
    rw [hb.names_eq, List.dropLast_concat] at hway
    exact (passable_iff hd hb (hfree m hm)).1 hway
  · intro hno
    have hway : ∀ m ∈ x.plan.moves, d.Passable m.2.names.dropLast := by
      intro m hm
      obtain ⟨-, b, hb⟩ := hstraight m hm
      rw [hb.names_eq, List.dropLast_concat, passable_iff hd hb (hfree m hm)]
      exact hno m hm
    obtain ⟨e', he', -⟩ :=
      ((movable_of_make hd hroot hexts h hn hway).of_sameShape he hs).exists_renameAll
    exact ⟨e', he'⟩

end Preparation

/-- No file lies above a destination of the plan. -/
def Plan.Unobstructed (d : Disk) (pl : Plan) : Prop :=
  ∀ m ∈ pl.moves, ∀ q, m.2.isUnder q = true → d.hasFile q = false

/-- What a plan renames can be renamed exactly if nothing is in its way. -/
theorem renameAll_iff_unobstructed {d e : Disk} {root : Path} {c : Config} {old new : Path}
    {pl : Plan} (hd : d.WellFormed) (habs : root.isAbsolute = true)
    (hexts : ∀ ext ∈ c.extensions, '/' ∉ ext.toList)
    (h : plan d (.ofRoot root c) old new = .ok pl)
    (h1 : (MovedUnit.make d (.ofRoot root c) pl.old pl.new pl.delta).newName ≠ ".")
    (h2 : (MovedUnit.make d (.ofRoot root c) pl.old pl.new pl.delta).newName ≠ "..")
    (he : e.WellFormed) (hs : d.SameShape e) :
    (∃ e', renameAll e pl.moves = (.ok (), e')) ↔ pl.Unobstructed d := by
  obtain ⟨x, hx, rfl⟩ := Preparation.plan_eq_ok h
  obtain ⟨rs, hroot⟩ := straight_normalize habs
  rw [← Project.root_ofRoot root c] at hroot
  obtain ⟨-, -, hunit⟩ := Preparation.unit_of_make hx
  rw [hunit] at h1 h2
  exact Preparation.renameAll_iff hd hroot hexts hx
    (Preparation.isName_newName_of_make hd hroot hx h1 h2) he.rooted hs

/-! ## §4. Carrying out. -/

/-- What has been done when a move has been carried out. -/
theorem carryOut_eq_ok {d d' : Disk} {p : Project} {old new : Path} {r : MoveReport}
    (h : carryOut d p old new = .ok (r, d')) : plan d p old new = .ok r.plan ∧
      r.dryRun = p.config.dryRun ∧
      (r.outcomes, d') = if p.config.dryRun then ([], d) else applyEdits d r.plan.edits := by
  unfold carryOut at h
  obtain ⟨pl, hpl, h⟩ := exists_of_bind_eq_ok h
  cases hdry : p.config.dryRun with
  | true =>
    rw [hdry, if_pos rfl] at h
    cases h
    exact ⟨hpl, rfl, rfl⟩
  | false =>
    rw [hdry, if_neg (by decide)] at h
    cases h
    exact ⟨hpl, rfl, rfl⟩

/-- A planned move is carried out by making the edits of its plan. -/
theorem carryOut_of_plan {d : Disk} {p : Project} {old new : Path} {pl : Plan}
    (h : plan d p old new = .ok pl) (hdry : p.config.dryRun = false) :
    carryOut d p old new
      = .ok (⟨pl, false, (applyEdits d pl.edits).1⟩, (applyEdits d pl.edits).2) := by
  unfold carryOut
  rw [h, hdry]
  rfl

/-- Carrying out a move keeps the shape of the disk. -/
theorem sameShape_carryOut {d d' : Disk} {p : Project} {old new : Path} {r : MoveReport}
    (hd : d.WellFormed) (h : carryOut d p old new = .ok (r, d')) :
    d'.WellFormed ∧ d.SameShape d' := by
  obtain ⟨-, -, heq⟩ := carryOut_eq_ok h
  have hd' := congrArg Prod.snd heq
  change d' = _ at hd'
  rw [hd']
  split
  · exact ⟨hd, .refl d⟩
  · obtain ⟨hwell, hshape, -⟩ :=
      readText_editFiles_of_elsewhere hd (editsByFile r.plan.edits)
    exact ⟨hwell, hshape⟩

/-- A move fails if its plan has been carried out and something cannot be renamed. -/
theorem runMove_of_trouble {d d' : Disk} {p : Project} {old new : Path} {format : Format}
    {r : MoveReport} {t : RenameTrouble}
    (h : carryOut d p (Command.absolute d old) (Command.absolute d new) = .ok (r, d'))
    (hdry : r.dryRun = false) (ht : (renameAll d' r.plan.moves).1 = .error t) :
    Command.runMove d p old new false false format
      = (.error ⟨Command.renameChain t⟩, (renameAll d' r.plan.moves).2) := by
  unfold Command.runMove
  simp only [Bool.or_false, h, hdry, Bool.false_eq_true, if_false]
  cases hr : renameAll d' r.plan.moves with
  | mk e d'' =>
    rw [hr] at ht
    obtain rfl := ht
    rfl

/-- A move that fails and leaves another disk has been planned, and has failed in its renames. -/
theorem exists_plan_of_runMove {d d' : Disk} {p : Project} {old new : Path} {dryRun noMove : Bool}
    {format : Format} {a : Command.Abort} (hd : d.WellFormed)
    (h : Command.runMove d p old new dryRun noMove format = (.error a, d')) (hne : d' ≠ d) :
    ∃ pl e t, plan d p (Command.absolute d old) (Command.absolute d new) = .ok pl ∧
      e.WellFormed ∧ d.SameShape e ∧ renameAll e pl.moves = (.error t, d') := by
  unfold Command.runMove at h
  simp only at h
  split at h
  -- a refused move has written nothing
  · cases h
    exact absurd rfl hne
  · rename_i r e hr
    obtain ⟨hplan, hdry, -⟩ := carryOut_eq_ok hr
    obtain ⟨hwell, hshape⟩ := sameShape_carryOut hd hr
    split at h
    · cases h
    · rename_i hrun
      -- files are renamed only if neither the command nor the configuration asks for a dry run
      have hcommand : (p.config.dryRun || dryRun) = p.config.dryRun := by
        simp only [Bool.or_eq_true, not_or, Bool.not_eq_true] at hrun
        have hno : (p.config.dryRun || dryRun) = false := hdry.symm.trans hrun.1
        rw [hno, (Bool.or_eq_false_iff.1 hno).1]
      rw [hcommand] at hplan
      split at h
      · rename_i t e' hrename
        cases h
        exact ⟨r.plan, e, t, hplan, hwell, hshape, hrename⟩
      · cases h

/-- **Files above a destination are all that a plan overlooks**: its renames succeed exactly if
    there is none, on the disk that has been planned for and on every disk of the same shape, such
    as the one that has been edited.  A move that fails with nothing in its way has therefore
    changed nothing. -/
theorem renames_of_plan {d : Disk} {root : Path} {c : Config} (hd : d.WellFormed)
    (habs : root.isAbsolute = true) (hexts : ∀ ext ∈ c.extensions, '/' ∉ ext.toList) :
    (∀ old new pl, plan d (.ofRoot root c) old new = .ok pl →
      (MovedUnit.make d (.ofRoot root c) pl.old pl.new pl.delta).newName ≠ "." →
      (MovedUnit.make d (.ofRoot root c) pl.old pl.new pl.delta).newName ≠ ".." →
      ∀ e : Disk, e.WellFormed → d.SameShape e →
        ((∃ e', renameAll e pl.moves = (.ok (), e')) ↔ pl.Unobstructed d)) ∧
    ∀ old new dryRun noMove format a d',
      Command.runMove d (.ofRoot root c) old new dryRun noMove format = (.error a, d') →
      d' ≠ d → ∃ pl,
        plan d (.ofRoot root c) (Command.absolute d old) (Command.absolute d new) = .ok pl ∧
          ((MovedUnit.make d (.ofRoot root c) pl.old pl.new pl.delta).newName = "." ∨
            (MovedUnit.make d (.ofRoot root c) pl.old pl.new pl.delta).newName = ".." ∨
              ¬ pl.Unobstructed d) := by
  refine ⟨fun old new pl h h1 h2 e he hs =>
    renameAll_iff_unobstructed hd habs hexts h h1 h2 he hs, ?_⟩
  intro old new dryRun noMove format a d' h hne
  obtain ⟨pl, e, t, hplan, he, hs, hrename⟩ := exists_plan_of_runMove hd h hne
  refine ⟨pl, hplan, ?_⟩
  by_contra hno
  simp only [not_or, not_not] at hno
  obtain ⟨h1, h2, hclear⟩ := hno
  -- with nothing in their way, the renames that failed would have succeeded
  obtain ⟨e', he'⟩ := (renameAll_iff_unobstructed hd habs hexts hplan h1 h2 he hs).2 hclear
  rw [hrename] at he'
  cases he'

/-- The busy directory can be renamed once the files have been edited, with the file in it. -/
theorem renames_of_busy_plan : ∃ pl, plan busyDisk smallProject ⟨"lib"⟩ ⟨"q/lib"⟩ = .ok pl ∧
    pl.edits = busyEdits ∧ pl.moves = [(⟨"/lib"⟩, ⟨"/q/lib"⟩)] ∧
      ∃ e, renameAll (applyEdits busyDisk pl.edits).2 pl.moves = (.ok (), e) := by
  have hplan := Preparation.plan_of_make prepared_busyDisk
  have hname : (MovedUnit.make busyDisk smallProject busyPreparation.plan.old
      busyPreparation.plan.new busyPreparation.plan.delta).newName = "lib" := by decide +kernel
  obtain ⟨hwell, hshape, -⟩ := readText_editFiles_of_elsewhere wellFormed_busyDisk
    (editsByFile busyPreparation.plan.edits)
  refine ⟨_, hplan, edits_busyPreparation, rfl, ((renames_of_plan wellFormed_busyDisk rfl
    (by decide)).1 _ _ _ hplan ?_ ?_ _ hwell hshape).2 ?_⟩
  · exact fun h => absurd (hname.symm.trans h) (by decide)
  · exact fun h => absurd (hname.symm.trans h) (by decide)
  · -- above the destination are directories alone
    intro m hm
    rw [List.mem_singleton.1 hm]
    have hgoal : (⟨"/q/lib"⟩ : Path).Straight (["q"] ++ ["lib"]) := by
      refine ⟨?_, rfl⟩
      unfold IsName
      decide
    refine (Preparation.passable_iff wellFormed_busyDisk hgoal rfl).1 ?_
    intro ks hks c hc
    rcases List.prefix_concat_iff.1 (show ks <+: [] ++ ["q"] from hks) with rfl | hks
    · cases hc
    · obtain rfl := List.prefix_nil.1 hks
      cases hc

/-- The directory of the small disk, on its way below the source file. -/
def strandedUnit : MovedUnit :=
  .make smallDisk smallProject ⟨"/lib"⟩ ⟨"/a.ts/lib"⟩ ⟨"a.ts", .moveDown, 1, [], ["a.ts"]⟩

/-- What is known when the directory is to be moved below the source file. -/
def strandedPreparation : Preparation :=
  .ofStaying smallDisk smallProject strandedUnit ⟨"a.ts", .moveDown, 1, [], ["a.ts"]⟩
    ⟨[(⟨"/a.ts"⟩, .typeScript)], []⟩

theorem prepared_strandedUnit :
    Preparation.make smallDisk smallProject ⟨"/lib"⟩ ⟨"/a.ts/lib"⟩ = .ok strandedPreparation := by
  have hcheck : Preparation.check smallDisk smallProject ⟨"/lib"⟩ ⟨"/a.ts/lib"⟩
      = .ok (⟨"/lib"⟩, ⟨"/a.ts/lib"⟩, ⟨"a.ts", .moveDown, 1, [], ["a.ts"]⟩) := rfl
  exact Preparation.make_of_staying hcheck rfl discover_smallDisk (by decide +kernel)

/-- **A move below a file is planned, edits files, and fails**: the source file is left with a
    reference to a place that cannot be made. -/
theorem edited_below_file : ∃ pl t a d',
    plan smallDisk smallProject ⟨"/lib"⟩ ⟨"/a.ts/lib"⟩ = .ok pl ∧
      (renameAll smallDisk pl.moves).1 = .error t ∧
      Command.runMove smallDisk smallProject ⟨"/lib"⟩ ⟨"/a.ts/lib"⟩ false false .plain
        = (.error a, d') ∧
      d'.readText ⟨"/a.ts"⟩ = .ok "import './a.ts/lib';\n" := by
  let pl := strandedPreparation.plan
  let d' := (applyEdits smallDisk pl.edits).2
  have hplan : plan smallDisk smallProject ⟨"/lib"⟩ ⟨"/a.ts/lib"⟩ = .ok pl :=
    Preparation.plan_of_make prepared_strandedUnit
  have hcarry : carryOut smallDisk smallProject (Command.absolute smallDisk ⟨"/lib"⟩)
      (Command.absolute smallDisk ⟨"/a.ts/lib"⟩)
      = .ok (⟨pl, false, (applyEdits smallDisk pl.edits).1⟩, d') := by
    have hold : Command.absolute smallDisk ⟨"/lib"⟩ = ⟨"/lib"⟩ := by decide +kernel
    have hnew : Command.absolute smallDisk ⟨"/a.ts/lib"⟩ = ⟨"/a.ts/lib"⟩ := by decide +kernel
    rw [hold, hnew]
    exact carryOut_of_plan hplan rfl
  have herror : ∀ e : Except RenameTrouble Unit, e.isOk = false → ∃ t, e = .error t := by
    rintro (t | u) he
    · exact ⟨t, rfl⟩
    · cases he
  -- the renames fail on the disk as it was, and on the edited one
  obtain ⟨t, ht⟩ := herror (renameAll smallDisk pl.moves).1 (by decide +kernel)
  obtain ⟨t', ht'⟩ := herror (renameAll d' pl.moves).1 (by decide +kernel)
  exact ⟨pl, t, _, _, hplan, ht, runMove_of_trouble hcarry rfl ht',
    eq_ok_of_toOption (by decide +kernel)⟩

end ModuleMove
