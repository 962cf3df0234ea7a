import ModuleMove.Proofs.Dependents.Straight
import ModuleMove.Proofs.Plan.Movable
import ModuleMove.Proofs.Plan.Reread
import ModuleMove.Proofs.Unit.Carried

/-!
# PROBED MODULES — which files references stand for once a move has been made

A reference stands for the file that is found when the path that it leads to is probed.  Its text is
written anew by paths alone, and files are renamed by what is on the disk.  Where the two agree, the
reference stands for the same file after the move, at the place where that file is then.

Main statements:
  * `Carries.probe_led` — what is found at the path that a module path is led to.
  * `references_probe_after` — what the references of all scanned files stand for after a move.
-/

namespace ModuleMove

open ModuleMove.Path

namespace Preparation

/-! ## §1. Paths and renames. -/

/-- The renames of a plan carry the files on its disk along the course of its unit. -/
structure Carries (x : Preparation) : Prop where
  /-- The disk has a tree. -/
  rooted : x.disk.Rooted
  /-- The places of the unit are written by their names. -/
  straight : x.unit.IsStraight
  /-- The renames can be made. -/
  movable : x.disk.Movable x.plan.moves
  /-- A file that is renamed is carried along. -/
  carried : ∀ {q ks c}, q.Straight ks → x.disk.fileAt ks = some c → Renames x.plan.moves q →
    ∃ js, (placeAfter x.plan.moves q).Straight js ∧ x.unit.course.Carried ks js
  /-- A file that is taken along as its path shows is renamed. -/
  renamed : ∀ {q ks c}, q.Straight ks → x.disk.fileAt ks = some c → x.unit.travels q = true →
    Renames x.plan.moves q

section

variable {d : Disk} {p : Project} {old new : Path} {x : Preparation} {rs : List String}

theorem isStraight_of_make (hd : d.WellFormed) (hroot : p.root.Straight rs)
    (hexts : ∀ ext ∈ p.extensions, '/' ∉ ext.toList) (h : make d p old new = .ok x)
    (hn : IsName x.unit.newName) : x.unit.IsStraight := by
  obtain ⟨old', new', δ, hc, hu, -⟩ := make_eq_ok h
  obtain ⟨as, a, gs, hold, hleave, henter⟩ :=
    MovedUnit.exists_straight_unit hd.rooted hroot hexts hc
  rw [hu] at hn ⊢
  exact MovedUnit.isStraight_of_names hold hleave henter hn

/-- A file that is renamed is carried along. -/
theorem carried_of_renames (hd : d.WellFormed) (hu : x.unit.IsStraight)
    (h : make d p old new = .ok x) (hm : d.Movable x.plan.moves) {q : Path} {ks : List String}
    {c : Content} (hq : q.Straight ks) (hfile : d.fileAt ks = some c)
    (hr : Renames x.plan.moves q) :
    ∃ js, (placeAfter x.plan.moves q).Straight js ∧ x.unit.course.Carried ks js := by
  obtain ⟨m, hmem, hunder⟩ := hr
  have hmoves := (moves_of_make h).1
  obtain ⟨rest, rfl⟩ := (hq.isUnder_iff (hm.straight m hmem).1).1 hunder
  obtain ⟨-, hplace⟩ := placeAfter_of_mem hm hmem hq
  refine ⟨_, hplace, ?_⟩
  cases hs : x.unit.style with
  | directory =>
    rw [MovedUnit.moves_of_directory hs hmoves, List.mem_singleton] at hmem
    rw [hmem, (hu.old hs).names_eq, hu.newModule.names_eq, List.append_assoc, List.append_assoc]
    exact .directory (w := x.unit.course) hs rest
  | file =>
    obtain ⟨es, hes, hall⟩ := list_of_make h hs
    obtain ⟨e, he, t, ht, rfl⟩ := (hall m).1 hmem
    have hname := MovedUnit.isName_of_mem_list hd hes he
    have hold := hu.leaves.join hname
    have hnew := hu.enters.join (MovedUnit.isName_entryName? hu.newName hname ht)
    -- nothing lies below a file
    have hrest : rest = [] := by
      obtain ⟨b, hb⟩ := look?_of_mem_moves hd.rooted (find?_of_list hd.rooted hu.leaves hes) he ht
      rw [← hold.names_eq] at hb
      by_contra hne
      obtain ⟨k, rest, rfl⟩ := List.exists_cons_of_ne_nil hne
      have hseen : d.top.look? ((x.unit.oldParent.join ⟨e.1⟩).names ++ k :: rest) ≠ none := by
        rw [Disk.fileAt_eq_some.1 hfile]
        simp
      rw [Disk.look?_of_append hseen] at hb
      cases hb
    obtain ⟨z, hz, hz'⟩ := MovedUnit.exists_rest_of_entryName? ht
    rw [hrest, List.append_nil, List.append_nil, hold.names_eq, hnew.names_eq, hz, hz']
    exact .file (w := x.unit.course) hs z

/-- A file that is taken along as its path shows is renamed. -/
theorem renames_of_travels (hd : d.WellFormed) (hu : x.unit.IsStraight)
    (h : make d p old new = .ok x) {q : Path} {ks : List String} {c : Content}
    (hq : q.Straight ks) (hfile : d.fileAt ks = some c) (ht : x.unit.travels q = true) :
    Renames x.plan.moves q := by
  have hmoves := (moves_of_make h).1
  obtain ⟨m, hm⟩ := Option.isSome_iff_exists.1 ht
  cases hs : x.unit.style with
  | directory =>
    refine ⟨(x.unit.old, x.unit.newModule), ?_, ?_⟩
    · rw [MovedUnit.moves_of_directory hs hmoves]
      exact .head _
    · rw [← MovedUnit.travels_of_directory hs]
      exact ht
  | file =>
    obtain ⟨es, hes, hall⟩ := list_of_make h hs
    obtain ⟨f, t, hf, hc, hname, -⟩ := MovedUnit.relocate_of_file hs hm
    -- the file is an entry of the directory that the unit leaves, and the first rule names it
    obtain rfl := hq.eq_append hu.leaves [f] hc
    have hold := hu.leaves.join hf
    have hfind := Node.look?_eq_file.1 (Disk.fileAt_eq_some.1 hfile)
    rw [Node.find?_append, find?_of_list hd.rooted hu.leaves hes] at hfind
    obtain ⟨n, hn, hnc⟩ := Option.bind_eq_some_iff.1 (show (Node.child? f es).bind _ = _ from hfind)
    obtain rfl := Option.some.inj hnc
    have hentry : x.unit.entryName? (f, .file c) = some t := by
      show (x.unit.relocatedName? f).orElse _ = some t
      rw [hname]
      rfl
    refine ⟨_, (hall _).2 ⟨_, Node.mem_of_child? hn, t, hentry, rfl⟩, ?_⟩
    exact (hq.isUnder_iff hold).2 (List.prefix_refl _)

/-- **The renames of a plan carry the files on its disk along.** -/
theorem carries_of_make (hd : d.WellFormed) (hroot : p.root.Straight rs)
    (hexts : ∀ ext ∈ p.extensions, '/' ∉ ext.toList) (h : make d p old new = .ok x)
    (hn : IsName x.unit.newName) (hm : d.Movable x.plan.moves) : x.Carries := by
  have hu := isStraight_of_make hd hroot hexts h hn
  obtain ⟨rfl, -, -⟩ := unit_of_make h
  exact ⟨hd.rooted, hu, hm, fun hq hfile hr => carried_of_renames hd hu h hm hq hfile hr,
    fun hq hfile ht => renames_of_travels hd hu h hq hfile ht⟩

end

section

variable {x : Preparation} {q t : Path} {ks ts : List String} {c : Content}

/-- A straight path is led to a straight path. -/
theorem Carries.straight_led (hx : x.Carries) (ht : t.Straight ts) :
    ∃ js, (x.led t).Straight js ∧ (x.unit.travels t = true → x.unit.course.Carried ts js) := by
  unfold led MovedUnit.led MovedUnit.travels
  cases hm : x.unit.relocate t with
  | none => exact ⟨ts, ht, fun h => by cases h⟩
  | some m =>
    obtain ⟨js, hjs, hcarried⟩ := MovedUnit.straight_relocate hx.straight ht hm
    exact ⟨js, hjs, fun _ => hcarried⟩

theorem led_of_stays (h : x.unit.travels t = false) : x.led t = t := by
  unfold MovedUnit.travels at h
  rw [Option.isSome_eq_false_iff, Option.isNone_iff_eq_none] at h
  unfold led MovedUnit.led
  rw [h]
  rfl

/-- **A file is renamed to where its path is led**, if it is renamed only when its path is led
    somewhere. -/
theorem Carries.placeAfter_eq_led (hx : x.Carries) (hq : q.Straight ks)
    (hfile : x.disk.fileAt ks = some c)
    (h : Renames x.plan.moves q → x.unit.travels q = true) :
    placeAfter x.plan.moves q = x.led q := by
  cases ht : x.unit.travels q with
  | true =>
    -- renames and relocation both take the names along, and there is one way to do so
    obtain ⟨js, hjs, hcarried⟩ := hx.straight_led hq
    obtain ⟨is, his, hcarried'⟩ := hx.carried hq hfile (hx.renamed hq hfile ht)
    obtain rfl := (hcarried ht).unique hcarried'
    exact his.ext hjs
  | false =>
    have hstays : ¬ Renames x.plan.moves q := fun hr => by
      rw [h hr] at ht
      cases ht
    rw [led_of_stays ht, placeAfter_of_stays hstays]

/-! ## §2. Attempts. -/

/-- What the attempts at a path find on the disk after the move, if nothing comes in between: an
    attempt that is carried along with the path is the same attempt at the path that it is led
    to. -/
theorem Carries.placeAfter_attempt (hx : x.Carries) {a : Attempt}
    (hexts : ∀ ext, a.extension? = some ext → '/' ∉ ext.toList) (ht : t.Straight ts)
    (hfile : x.disk.hasFile (a.at_ t) = true)
    (h : x.unit.travels t = true ↔ Renames x.plan.moves (a.at_ t)) :
    placeAfter x.plan.moves (a.at_ t) = a.at_ (x.led t) := by
  have hat := (Attempt.straight_or ht hexts).resolve_right fun hno => by
    rw [hno x.disk hx.rooted] at hfile
    cases hfile
  cases hts : x.unit.travels t with
  | true =>
    obtain ⟨c, hc⟩ := (Disk.hasFile_iff_fileAt hx.rooted hat).1 hfile
    obtain ⟨js, hjs, hcarried⟩ := hx.straight_led ht
    obtain ⟨is, his, hcarried'⟩ := hx.carried hat hc (h.1 hts)
    obtain rfl := (hcarried hts).names a hcarried'
    exact his.ext (Attempt.straight_at hjs (hcarried hts).ne_nil hexts)
  | false =>
    have hstays : ¬ Renames x.plan.moves (a.at_ t) := fun hr => by
      rw [h.2 hr] at hts
      cases hts
    rw [led_of_stays hts, placeAfter_of_stays hstays]

/-- A file that is at an attempt after the move, and that is renamed exactly if the path is led
    somewhere, was at the same attempt before it. -/
theorem Carries.hasFile_of_attempt (hx : x.Carries) {a : Attempt}
    (hexts : ∀ ext, a.extension? = some ext → '/' ∉ ext.toList) (ht : t.Straight ts)
    (hq : q.Straight ks) (hfile : x.disk.fileAt ks = some c)
    (hplace : placeAfter x.plan.moves q = a.at_ (x.led t))
    (h : x.unit.travels t = true ↔ Renames x.plan.moves q) :
    x.disk.hasFile (a.at_ t) = true := by
  cases hts : x.unit.travels t with
  | true =>
    obtain ⟨js, hjs, hcarried⟩ := hx.straight_led ht
    obtain ⟨is, his, hcarried'⟩ := hx.carried hq hfile (h.1 hts)
    have hcarried := hcarried hts
    -- on the way back, the same attempt is made
    have hnames : is = a.names js := by
      rw [hplace] at his
      rw [← his.names_eq, (Attempt.straight_at hjs hcarried.ne_nil hexts).names_eq]
    rw [hnames] at hcarried'
    have hks : ks = a.names ts := hcarried.back.names a hcarried'.back
    subst hks
    rw [← hq.ext (Attempt.straight_at ht hcarried.back.ne_nil hexts)]
    exact (Disk.hasFile_iff_fileAt hx.rooted hq).2 ⟨c, hfile⟩
  | false =>
    have hstays : ¬ Renames x.plan.moves q := fun hr => by
      rw [h.2 hr] at hts
      cases hts
    rw [placeAfter_of_stays hstays, led_of_stays hts] at hplace
    rw [← hplace]
    exact (Disk.hasFile_iff_fileAt hx.rooted hq).2 ⟨c, hfile⟩

/-- **What is found at the path that a module path is led to**: the file that was found before, at
    its new place, if it is renamed exactly if the path is led somewhere, and if so is each file
    that lies, after the move, where it is looked for earlier. -/
theorem Carries.probe_led (hx : x.Carries) {e e' : Disk} {extensions : List String}
    (hexts : ∀ ext ∈ extensions, '/' ∉ ext.toList) (hs : x.disk.SameShape e) (he : e.Rooted)
    (he' : e'.Rooted) (hmoved : e.Moved e' x.plan.moves) (ht : t.Straight ts)
    (hprobe : probe x.disk extensions t = some q)
    (htarget : x.unit.travels t = true ↔ Renames x.plan.moves q)
    (hfree : ∀ p, x.disk.hasFile p = true → placeAfter x.plan.moves p ∈
      (candidates extensions (x.led t)).takeWhile (· != placeAfter x.plan.moves q) →
        (x.unit.travels t = true ↔ Renames x.plan.moves p)) :
    probe e' extensions (x.led t) = some (placeAfter x.plan.moves q) := by
  obtain ⟨before, a, behind, hsplit, rfl, hfile, hbefore⟩ := probe_eq_some hprobe
  have hmovable := hx.movable.of_sameShape he hs
  have hmem : ∀ {b}, b ∈ a :: before → ∀ ext, b.extension? = some ext → '/' ∉ ext.toList := by
    intro b hb ext hext
    refine hexts ext (mem_of_mem_attempts ?_ hext)
    rw [hsplit]
    rcases List.mem_cons.1 hb with rfl | hb
    · exact List.mem_append_right _ (List.mem_cons_self ..)
    · exact List.mem_append_left _ hb
  have hplace := hx.placeAfter_attempt (hmem (List.mem_cons_self ..)) ht hfile htarget
  -- the candidate is tried, it is there, and nothing is there that is tried before it
  refine probe_of_first ?_ ?_ fun z hz => ?_
  · rw [hplace]
    unfold candidates
    rw [hsplit]
    exact List.mem_map_of_mem (List.mem_append_right _ (List.mem_cons_self ..))
  · have hat := (Attempt.straight_or ht (hmem (List.mem_cons_self ..))).resolve_right fun hno => by
      rw [hno x.disk hx.rooted] at hfile
      cases hfile
    obtain ⟨c, hc⟩ := hs.exists_fileAt.2 ((Disk.hasFile_iff_fileAt hx.rooted hat).1 hfile)
    obtain ⟨gs, hgs, hfound⟩ := hmoved.fileAt_placeAfter hmovable hat hc
    exact (Disk.hasFile_iff_fileAt he' hgs).2 ⟨c, hfound⟩
  · obtain ⟨b, hb, rfl⟩ : ∃ b ∈ before, z = b.at_ (x.led t) := by
      rw [hplace] at hz
      exact exists_attempt_of_mem_takeWhile hsplit hz
    rw [Bool.eq_false_iff]
    intro hthere
    obtain ⟨js, hjs, -⟩ := hx.straight_led ht
    have hexts' := hmem (List.mem_cons_of_mem _ hb)
    have hat := (Attempt.straight_or hjs hexts').resolve_right fun hno => by
      rw [hno e' he'] at hthere
      cases hthere
    -- what is there now was somewhere before the move
    obtain ⟨c, hc⟩ := (Disk.hasFile_iff_fileAt he' hat).1 hthere
    obtain ⟨p, ms, hp, hfound, hpz⟩ := hmoved.exists_of_fileAt hmovable hat hc
    obtain ⟨c', hc'⟩ := hs.exists_fileAt.1 ⟨c, hfound⟩
    have hiff := hfree p ((Disk.hasFile_iff_fileAt hx.rooted hp).2 ⟨c', hc'⟩) (hpz ▸ hz)
    have hcaptured := hx.hasFile_of_attempt hexts' ht hp hc' hpz hiff
    rw [hbefore b hb] at hcaptured
    cases hcaptured

/-! ## §3. References. -/

/-- What paths show of a move agrees with what is done on the disk, as far as a reference of a file
    and the file `q` that it stands for are concerned. -/
structure Agrees (x : Preparation) (f : ScannedFile) (r : Reference) (q : Path) : Prop where
  /-- The file with the reference is renamed only if its path is led somewhere. -/
  file : Renames x.plan.moves f.path → x.unit.travels f.path = true
  /-- In a file that stays, a specifier that leads to something that is taken along names it. -/
  named : x.unit.travels f.path = false →
    x.unit.travels (targetOf x.project (x.project.directoryOf f.path) r) = true →
      x.unit.matchesSpecifier r.specifier = true ∧ ¬ Specifier.Doubled r.specifier
  /-- The file that the reference stands for is renamed exactly if the path that it leads to is led
      somewhere. -/
  target : x.unit.travels (targetOf x.project (x.project.directoryOf f.path) r) = true ↔
    Renames x.plan.moves q
  /-- So is each file that lies, after the move, where the reference is looked up earlier. -/
  free : ∀ p, x.disk.hasFile p = true → placeAfter x.plan.moves p ∈
    (candidates x.project.extensions
      (x.led (targetOf x.project (x.project.directoryOf f.path) r))).takeWhile
        (· != placeAfter x.plan.moves q) →
      (x.unit.travels (targetOf x.project (x.project.directoryOf f.path) r) = true ↔
        Renames x.plan.moves p)

/-- **A reference that leads to where its target is led** stands for the file that it stood for, at
    the place where that file is. -/
theorem Carries.probe_of_agrees (hx : x.Carries) {e e' : Disk} {f : ScannedFile} {r : Reference}
    {u : String} {rs fs : List String} (hroot : x.project.root.Straight rs)
    (hf : f.path.Straight fs) (hfile : x.disk.fileAt fs = some c)
    (hexts : ∀ ext ∈ x.project.extensions, '/' ∉ ext.toList) (hs : x.disk.SameShape e)
    (he : e.Rooted) (he' : e'.Rooted) (hmoved : e.Moved e' x.plan.moves)
    (hread : (Specifier.resolve u (x.directoryAfter f) x.project.root).same
      (x.led (targetOf x.project (x.project.directoryOf f.path) r)) = true)
    (hprobe : probe x.disk x.project.extensions
      (targetOf x.project (x.project.directoryOf f.path) r) = some q)
    (h : x.Agrees f r q) :
    probe e' x.project.extensions (Specifier.resolve u
      (x.project.directoryOf (placeAfter x.plan.moves f.path)) x.project.root)
        = some (placeAfter x.plan.moves q) := by
  have hdir : x.directoryAfter f = x.project.directoryOf (placeAfter x.plan.moves f.path) := by
    rw [hx.placeAfter_eq_led hf hfile h.file]
    rfl
  obtain ⟨ds, hds⟩ := Project.straight_directoryOf hroot hf
  obtain ⟨ts, hts⟩ := Specifier.straight_resolve hds hroot r.specifier
  obtain ⟨js, hjs, -⟩ := hx.straight_led hts
  obtain ⟨gs, hgs⟩ : ∃ gs, (x.directoryAfter f).Straight gs := by
    obtain ⟨fs', hfs', -⟩ := hx.straight_led hf
    exact Project.straight_directoryOf hroot hfs'
  obtain ⟨us, hus⟩ := Specifier.straight_resolve hgs hroot u
  -- both paths are straight, so that they are one path
  obtain rfl := (hus.same_iff hjs).1 hread
  rw [← hdir, hus.ext hjs]
  exact hx.probe_led hexts hs he he' hmoved hts hprobe h.target h.free

end

end Preparation

/-! ## §4. All files. -/

theorem eq_of_isOk {r : Except RenameTrouble Unit × Disk} (h : r.1.isOk = true) :
    r = (.ok (), r.2) := by
  obtain ⟨e | u, d⟩ := r
  · cases h
  · rfl

theorem succeeded_of_failed_eq_nil {r : MoveReport} (h : r.failed = []) :
    ∀ o ∈ r.outcomes, o.status = .succeeded := by
  intro o ho
  have := List.filter_eq_nil_iff.1 h o ho
  unfold FileOutcome.isSuccess at this
  simpa using this

/-- **What references stand for after a move.**  A move has been carried out, all files have been
    edited, and the renames have been made.  Then each scanned file is at its place, with its old
    text but for patches.  In the place of each relative reference that no barrel has lost, there is
    one that stands for the file that the old one stood for, at the place where that file is now, if
    for them paths show what is done on the disk. -/
theorem references_probe_after {d d₁ d₂ : Disk} {root : Path} {c : Config} {old new : Path}
    {report : MoveReport} (hd : d.WellFormed) (habs : root.isAbsolute = true)
    (hexts : ∀ ext ∈ c.extensions, '/' ∉ ext.toList) (hdry : c.dryRun = false)
    (h : carryOut d (.ofRoot root c) old new = .ok (report, d₁)) (hok : report.failed = [])
    (hrenamed : renameAll d₁ report.plan.moves = (.ok (), d₂))
    (h1 : (MovedUnit.make d (.ofRoot root c) report.plan.old report.plan.new
      report.plan.delta).newName ≠ ".")
    (h2 : (MovedUnit.make d (.ofRoot root c) report.plan.old report.plan.new
      report.plan.delta).newName ≠ "..") :
    ∃ x, Preparation.make d (.ofRoot root c) old new = .ok x ∧ report.plan = x.plan ∧
      ∀ f ∈ x.index.scanned, ∃ s s' ps, d.readText f.path = .ok s ∧
        d₂.readText (placeAfter report.plan.moves f.path) = .ok s' ∧
        Patched ps 0 s.toList s'.toList ∧
        ∀ r ∈ f.relativeReferences, x.onRemoved f.path r = false → ∃ t, ⟨r.span, t⟩ ∈ ps ∧
          ∀ q, probe d c.extensions (Specifier.resolve r.specifier
              ((Project.ofRoot root c).directoryOf f.path) (Project.ofRoot root c).root) = some q →
            x.Agrees f r q →
            probe d₂ c.extensions (Specifier.resolve t
              ((Project.ofRoot root c).directoryOf (placeAfter report.plan.moves f.path))
              (Project.ofRoot root c).root) = some (placeAfter report.plan.moves q) := by
  obtain ⟨hplan, -, hmade⟩ := carryOut_eq_ok h
  obtain ⟨hd₁, hshape⟩ := sameShape_carryOut hd h
  obtain ⟨x, hx, hpl⟩ := Preparation.plan_eq_ok hplan
  have hmade : (report.outcomes, d₁) = applyEdits d x.plan.edits := by
    rw [hmade, ← hpl]
    exact if_neg (by rw [show (Project.ofRoot root c).config.dryRun = false from hdry]; decide)
  rw [hpl] at h1 h2 hrenamed ⊢
  obtain ⟨rs, hroot⟩ := straight_normalize habs
  rw [← Project.root_ofRoot root c] at hroot
  obtain ⟨hdisk, hproject, hunit⟩ := Preparation.unit_of_make hx
  rw [hunit] at h1 h2
  have hn := Preparation.isName_newName_of_make hd hroot hx h1 h2
  -- the renames have been made, so that no file was above their destinations
  obtain ⟨hmovable, hrooted, hmoved⟩ :=
    Preparation.movable_of_renameAll hd hroot hexts hx hn hd₁.rooted hshape hrenamed
  have hcarries := Preparation.carries_of_make hd hroot hexts hx hn hmovable
  -- the edits have all been made, so that the text in the place of each reference is known
  have hsound := Preparation.sound_of_make hd hx
  have hrel := Preparation.relocates_of_make hd hroot.goesOn hx h1 h2
  have hoks : ∀ o ∈ (applyEdits x.disk x.plan.edits).1, o.status = .succeeded := by
    rw [hdisk, ← hmade]
    exact succeeded_of_failed_eq_nil hok
  refine ⟨x, hx, rfl, fun f hf => ?_⟩
  obtain ⟨fs, hfs⟩ := straight_of_mem_scanned hd hroot hx hf
  rw [← hproject] at hroot
  obtain ⟨s, s', ps, hs, hs', hpatched, hall⟩ := hsound.exists_reread hroot.goesOn hrel hoks hf
  rw [hdisk, ← hmade] at hs'
  rw [hdisk] at hs
  have hfile := (Disk.readText_straight hd.rooted hfs).1 hs
  -- the edited text is then read where the file has been renamed to
  obtain ⟨gs, hgs, hfound⟩ := hmoved.fileAt_placeAfter
    (hmovable.of_sameShape hd₁.rooted hshape) hfs ((Disk.readText_straight hd₁.rooted hfs).1 hs')
  refine ⟨s, s', ps, hs, (Disk.readText_straight hrooted hgs).2 hfound, hpatched, ?_⟩
  intro r hr hkept
  obtain ⟨t, ht, hread⟩ := hall r hr hkept
  refine ⟨t, ht, fun q hq hagrees => ?_⟩
  subst hdisk
  have hprobe := hcarries.probe_of_agrees hroot hfs hfile
    (by rw [hproject]; exact hexts) hshape hd₁.rooted hrooted hmoved (hread hagrees.named)
    (by rw [hproject]; exact hq) hagrees
  rw [hproject] at hprobe
  exact hprobe

/-- A disk with a source file that imports a file from the directory beside it. -/
def dataDisk : Disk where
  top := .directory [("a.ts", .file (.text "import './lib/data.json';\n")),
    ("lib", .directory [("data.json", .file (.text ""))]), ("q", .directory [])]
  here := []

/-- What is known when the directory is moved into another one. -/
def dataPreparation : Preparation :=
  .ofStaying dataDisk smallProject
    (.make dataDisk smallProject ⟨"/lib"⟩ ⟨"/q/lib"⟩ ⟨"q", .moveDown, 1, [], ["q"]⟩)
    ⟨"q", .moveDown, 1, [], ["q"]⟩ ⟨[(⟨"/a.ts"⟩, .typeScript)], []⟩

/-- The reference of the source file. -/
def dataReference : Reference :=
  ⟨⟨"/a.ts"⟩, "./lib/data.json", ⟨8, 23⟩, ⟨0, 25⟩, .imports, [], 1⟩

/-- The source file, as it is scanned. -/
def dataFile : ScannedFile := ⟨⟨"/a.ts"⟩, .typeScript, [dataReference], [], []⟩

theorem wellFormed_dataDisk : dataDisk.WellFormed := by
  refine ⟨?_, _, rfl⟩
  simp only [dataDisk, Node.WellFormed, Node.AllWellFormed]
  decide

theorem prepared_dataDisk :
    Preparation.make dataDisk smallProject ⟨"lib"⟩ ⟨"q/lib"⟩ = .ok dataPreparation := by
  have hfound : discover dataDisk smallProject = .ok ⟨[(⟨"/a.ts"⟩, .typeScript)], []⟩ :=
    discover_smallProject rfl (by decide +kernel) (List.pairwise_singleton ..)
  have hcheck : Preparation.check dataDisk smallProject ⟨"lib"⟩ ⟨"q/lib"⟩
      = .ok (⟨"/lib"⟩, ⟨"/q/lib"⟩, ⟨"q", .moveDown, 1, [], ["q"]⟩) := rfl
  exact Preparation.make_of_staying hcheck rfl hfound (by decide +kernel)

theorem plan_dataPreparation :
    dataPreparation.plan.edits = [⟨⟨"/a.ts"⟩, 10, .insert "q/"⟩] ∧
      dataPreparation.plan.moves = [(⟨"/lib"⟩, ⟨"/q/lib"⟩)] := by
  decide +kernel

theorem agrees_dataFile : dataPreparation.Agrees dataFile dataReference ⟨"/lib/data.json"⟩ := by
  obtain ⟨-, hmoves⟩ := plan_dataPreparation
  have htravels : dataPreparation.unit.travels (Preparation.targetOf dataPreparation.project
      (dataPreparation.project.directoryOf dataFile.path) dataReference) = true := by
    decide +kernel
  refine ⟨?_, fun _ _ => ⟨by decide +kernel, ?_⟩, ⟨fun _ => ?_, fun _ => htravels⟩, ?_⟩
  · rintro ⟨m, hm, hunder⟩
    rw [hmoves, List.mem_singleton] at hm
    rw [hm] at hunder
    exact absurd hunder (by decide +kernel)
  · rintro ⟨t, ht⟩
    have := congrArg (fun s => s.toList.head?) ht
    simp [dataReference] at this
  · rw [hmoves]
    exact ⟨_, .head _, by decide +kernel⟩
  · -- the first candidate is the file
    intro p hp hmem
    have hnone : (candidates dataPreparation.project.extensions (dataPreparation.led
        (Preparation.targetOf dataPreparation.project
          (dataPreparation.project.directoryOf dataFile.path) dataReference))).takeWhile
            (· != placeAfter dataPreparation.plan.moves ⟨"/lib/data.json"⟩) = [] := by
      rw [hmoves]
      decide +kernel
    rw [hnone] at hmem
    cases hmem

/-- The reference of the source file stands for the same file after the move. -/
theorem data_found_after : ∃ report d₁ d₂,
    carryOut dataDisk smallProject ⟨"lib"⟩ ⟨"q/lib"⟩ = .ok (report, d₁) ∧ report.failed = [] ∧
      renameAll d₁ report.plan.moves = (.ok (), d₂) ∧
      probe dataDisk smallProject.extensions ⟨"/lib/data.json"⟩ = some ⟨"/lib/data.json"⟩ ∧
      ∃ s' ps t, d₂.readText ⟨"/a.ts"⟩ = .ok s' ∧
        Patched ps 0 "import './lib/data.json';\n".toList s'.toList ∧ ⟨⟨8, 23⟩, t⟩ ∈ ps ∧
        probe d₂ smallProject.extensions (Specifier.resolve t ⟨"/"⟩ ⟨"/"⟩)
          = some ⟨"/q/lib/data.json"⟩ := by
  obtain ⟨hedits, hmoves⟩ := plan_dataPreparation
  let pl := dataPreparation.plan
  let es : List Edit := [⟨⟨"/a.ts"⟩, 10, .insert "q/"⟩]
  let ms : List (Path × Path) := [(⟨"/lib"⟩, ⟨"/q/lib"⟩)]
  let d₁ := (applyEdits dataDisk es).2
  let d₂ := (renameAll d₁ ms).2
  have hcarry := carryOut_of_plan (Preparation.plan_of_make prepared_dataDisk) rfl
  rw [hedits] at hcarry
  have hok : MoveReport.failed ⟨pl, false, (applyEdits dataDisk es).1⟩ = [] := by decide +kernel
  have hrenamed : renameAll d₁ pl.moves = (.ok (), d₂) := by
    rw [hmoves]
    exact eq_of_isOk (by decide +kernel)
  have hprobe : probe dataDisk smallProject.extensions ⟨"/lib/data.json"⟩
      = some ⟨"/lib/data.json"⟩ := by decide +kernel
  have hscanned : dataFile ∈ dataPreparation.index.scanned := by decide +kernel
  have hname : (MovedUnit.make dataDisk smallProject pl.old pl.new pl.delta).newName = "lib" := by
    decide +kernel
  obtain ⟨x, hx, -, hall⟩ := references_probe_after wellFormed_dataDisk (by decide) (by decide) rfl
    hcarry hok hrenamed (fun h => absurd (hname.symm.trans h) (by decide))
    (fun h => absurd (hname.symm.trans h) (by decide))
  obtain rfl := Except.ok.inj (prepared_dataDisk.symm.trans hx)
  obtain ⟨s, s', ps, hs, hs', hpatched, hrefs⟩ := hall dataFile hscanned
  obtain ⟨t, ht, hfound⟩ := hrefs dataReference (.head _) (by decide +kernel)
  have hfound : probe d₂ smallProject.extensions (Specifier.resolve t
      (smallProject.directoryOf (placeAfter pl.moves dataFile.path)) smallProject.root)
        = some (placeAfter pl.moves ⟨"/lib/data.json"⟩) :=
    hfound ⟨"/lib/data.json"⟩ (by decide +kernel) agrees_dataFile
  have hstays : placeAfter pl.moves dataFile.path = ⟨"/a.ts"⟩ := by
    rw [hmoves]
    decide +kernel
  have hgoes : placeAfter pl.moves ⟨"/lib/data.json"⟩ = ⟨"/q/lib/data.json"⟩ := by
    rw [hmoves]
    decide +kernel
  have hdir : smallProject.directoryOf ⟨"/a.ts"⟩ = ⟨"/"⟩ := by decide +kernel
  have hroot : smallProject.root = ⟨"/"⟩ := by decide +kernel
  have hs' : d₂.readText (placeAfter pl.moves dataFile.path) = .ok s' := hs'
  rw [hstays] at hs'
  rw [hstays, hdir, hroot, hgoes] at hfound
  obtain rfl : "import './lib/data.json';\n" = s := Except.ok.inj hs
  exact ⟨_, d₁, d₂, hcarry, hok, hrenamed, hprobe, s', ps, t, hs', hpatched, ht, hfound⟩

/-! ## §5. A file and a directory of one name. -/

/-- A disk with a directory beside a source file of the same name, and a file that imports that
    name. -/
def twinDisk : Disk where
  top := .directory [("foo", .directory []), ("foo.ts", .file (.text "")), ("lib", .directory []),
    ("main.ts", .file (.text "import './foo';\n"))]
  here := []

/-- What is known when the directory is moved into another one. -/
def twinPreparation : Preparation :=
  .ofStaying twinDisk smallProject
    (.make twinDisk smallProject ⟨"/foo"⟩ ⟨"/lib/foo"⟩ ⟨"lib", .moveDown, 1, [], ["lib"]⟩)
    ⟨"lib", .moveDown, 1, [], ["lib"]⟩
    ⟨[(⟨"/foo.ts"⟩, .typeScript), (⟨"/main.ts"⟩, .typeScript)], []⟩

/-- The reference to the name. -/
def twinReference : Reference :=
  ⟨⟨"/main.ts"⟩, "./foo", ⟨8, 13⟩, ⟨0, 15⟩, .imports, [], 1⟩

/-- The file with the reference, as it is scanned. -/
def twinFile : ScannedFile := ⟨⟨"/main.ts"⟩, .typeScript, [twinReference], [], []⟩

theorem prepared_twinDisk :
    Preparation.make twinDisk smallProject ⟨"foo"⟩ ⟨"lib/foo"⟩ = .ok twinPreparation := by
  have hfound : discover twinDisk smallProject
      = .ok ⟨[(⟨"/foo.ts"⟩, .typeScript), (⟨"/main.ts"⟩, .typeScript)], []⟩ :=
    discover_smallProject rfl (by decide +kernel) (List.pairwise_pair.2 (by decide +kernel))
  have hcheck : Preparation.check twinDisk smallProject ⟨"foo"⟩ ⟨"lib/foo"⟩
      = .ok (⟨"/foo"⟩, ⟨"/lib/foo"⟩, ⟨"lib", .moveDown, 1, [], ["lib"]⟩) := rfl
  exact Preparation.make_of_staying hcheck rfl hfound (by decide +kernel)

theorem plan_twinPreparation :
    twinPreparation.plan.edits = [⟨⟨"/main.ts"⟩, 10, .insert "lib/"⟩] ∧
      twinPreparation.plan.moves = [(⟨"/foo"⟩, ⟨"/lib/foo"⟩)] := by
  decide +kernel

/-- **A reference that stood for a file stands for nothing after the move of a directory of the same
    name**: its text is led after the directory, and the file stays. -/
theorem twin_lost_after : ∃ report d₁ d₂,
    carryOut twinDisk smallProject ⟨"foo"⟩ ⟨"lib/foo"⟩ = .ok (report, d₁) ∧ report.failed = [] ∧
      renameAll d₁ report.plan.moves = (.ok (), d₂) ∧
      Preparation.make twinDisk smallProject ⟨"foo"⟩ ⟨"lib/foo"⟩ = .ok twinPreparation ∧
      twinFile ∈ twinPreparation.index.scanned ∧ twinReference ∈ twinFile.relativeReferences ∧
      twinPreparation.onRemoved twinFile.path twinReference = false ∧
      probe twinDisk smallProject.extensions (Specifier.resolve twinReference.specifier
        (smallProject.directoryOf twinFile.path) smallProject.root) = some ⟨"/foo.ts"⟩ ∧
      placeAfter report.plan.moves ⟨"/foo.ts"⟩ = ⟨"/foo.ts"⟩ ∧
      d₂.readText (placeAfter report.plan.moves twinFile.path) = .ok "import './lib/foo';\n" ∧
      probe d₂ smallProject.extensions (Specifier.resolve "./lib/foo"
        (smallProject.directoryOf (placeAfter report.plan.moves twinFile.path)) smallProject.root)
          = none := by
  obtain ⟨hedits, hmoves⟩ := plan_twinPreparation
  let pl := twinPreparation.plan
  let es : List Edit := [⟨⟨"/main.ts"⟩, 10, .insert "lib/"⟩]
  let ms : List (Path × Path) := [(⟨"/foo"⟩, ⟨"/lib/foo"⟩)]
  let d₁ := (applyEdits twinDisk es).2
  let d₂ := (renameAll d₁ ms).2
  have hcarry := carryOut_of_plan (Preparation.plan_of_make prepared_twinDisk) rfl
  rw [hedits] at hcarry
  have hok : MoveReport.failed ⟨pl, false, (applyEdits twinDisk es).1⟩ = [] := by decide +kernel
  have hrenamed : renameAll d₁ pl.moves = (.ok (), d₂) := by
    rw [hmoves]
    exact eq_of_isOk (by decide +kernel)
  have hfile : placeAfter pl.moves ⟨"/foo.ts"⟩ = ⟨"/foo.ts"⟩ := by
    rw [hmoves]
    decide +kernel
  have hstays : placeAfter pl.moves twinFile.path = ⟨"/main.ts"⟩ := by
    rw [hmoves]
    decide +kernel
  refine ⟨_, d₁, d₂, hcarry, hok, hrenamed, prepared_twinDisk, by decide +kernel, .head _,
    by decide +kernel, by decide +kernel, hfile, ?_, ?_⟩
  · rw [hstays]
    exact eq_ok_of_toOption (by decide +kernel)
  · rw [hstays]
    decide +kernel

end ModuleMove
