import ModuleMove.Proofs.Disk.Write
import ModuleMove.Proofs.Edit.Batch
import ModuleMove.Proofs.Path.Keyed
import ModuleMove.Proofs.Path.Normal

/-!
# EDITED FILES — what happens to one file does not matter to the others

Files are edited one after the other, each on the disk that the one before left.  As each is at a
place of its own and no directory changes, all that happens to a file is decided by the disk as it
was at first.

Main statements:
  * `editFiles_outcomes` — the outcome of each file is that of editing it alone.
  * `readText_editFiles` — a file that can be edited holds the text of its batch afterwards.
  * `look?_editFiles` — nothing is seen to change but files that could be edited.
-/

namespace ModuleMove

/-! ## §1. What is read. -/

/-- What is read at a path depends on what is seen at the place that it leads to. -/
theorem Disk.readText_of_sameShape {d e : Disk} (h : d.SameShape e) {p : Path}
    (hp : ∀ pl n, d.locate p = .ok (pl, n) → e.top.look? pl = d.top.look? pl) :
    e.readText p = d.readText p := by
  have hpl := Disk.place_of_sameShape h p
  unfold Disk.readText
  -- the path leads to one place on both disks, so that contents alone are to be compared
  cases hd : d.locate p with
  | error x =>
    rw [hd] at hpl
    cases he : e.locate p with
    | error y =>
      rw [he] at hpl
      rw [Except.error.inj hpl]
    | ok r => rw [he] at hpl; cases hpl
  | ok r =>
    obtain ⟨pl, n⟩ := r
    rw [hd] at hpl
    have hlook := hp pl n hd
    have hn := Disk.find?_of_locate hd
    cases he : e.locate p with
    | error y => rw [he] at hpl; cases hpl
    | ok s =>
      obtain ⟨ql, m⟩ := s
      rw [he] at hpl
      obtain rfl : ql = pl := Except.ok.inj hpl
      have hm := Disk.find?_of_locate he
      unfold Node.look? at hlook
      rw [hn, hm] at hlook
      have hc : m.content? = n.content? := Option.some.inj hlook
      cases n with
      | file c =>
        cases m with
        | file x =>
          cases hc
          rfl
        | directory fs => cases hc
      | directory es =>
        cases m with
        | file x => cases hc
        | directory fs => rfl

/-! ## §2. One file. -/

/-- The text of a file after its edits, if they can be made. -/
def editedText? (d : Disk) (p : Path) (es : List Edit) : Except Failure (String × List String) :=
  match d.readText p with
  | .error e => .error (.file p e)
  | .ok s => applyBatch p s es

/-- A file whose edits can be made is edited, and nothing else is seen to change. -/
theorem editFile_of_ok {d : Disk} (hd : d.WellFormed) {p : Path} {es : List Edit} {t : String}
    {ds : List String} (h : editedText? d p es = .ok (t, ds)) :
    ∃ e pl c, d.locate p = .ok (pl, .file c) ∧
      editFile d p es = (⟨p, .succeeded, ds, es.length⟩, e) ∧ e.WellFormed ∧ d.SameShape e ∧
      ∀ ks, e.top.look? ks = if ks = pl then some (some (.text t)) else d.top.look? ks := by
  unfold editedText? at h
  cases hr : d.readText p with
  | error x => rw [hr] at h; cases h
  | ok s =>
    rw [hr] at h
    obtain ⟨pl, hpl⟩ := Disk.readText_eq_ok.1 hr
    obtain ⟨e, hw, hwf, hshape, hlook⟩ := Disk.write_of_locate hd hpl t
    refine ⟨e, pl, _, hpl, ?_, hwf, hshape, hlook⟩
    have he : editFile? d p es = .ok (e, ds) := by
      unfold editFile?
      simp only [hr] at h ⊢
      simp only [h, hw]
    unfold editFile
    rw [he]

/-- The outcome of a file names it and counts its edits. -/
theorem path_editFile (d : Disk) (p : Path) (es : List Edit) :
    (editFile d p es).1.path = p ∧ (editFile d p es).1.edits = es.length := by
  unfold editFile
  split <;> exact ⟨rfl, rfl⟩

/-- A file whose edits cannot be made stays as it is, and so does everything else. -/
theorem editFile_of_error {d : Disk} {p : Path} {es : List Edit} {f : Failure}
    (h : editedText? d p es = .error f) :
    editFile d p es = (⟨p, .ofFailure f, [], es.length⟩, d) := by
  have he : editFile? d p es = .error f := by
    unfold editedText? at h
    unfold editFile?
    cases hr : d.readText p with
    | error x =>
      rw [hr] at h
      cases h
      rfl
    | ok s =>
      rw [hr] at h
      simp only at h ⊢
      simp only [h]
  unfold editFile
  rw [he]

/-- What happened to a file is decided by the text after its edits. -/
theorem editFile_outcome {d e : Disk} (hd : d.WellFormed) (he : e.WellFormed) {p : Path}
    {es : List Edit} (h : editedText? e p es = editedText? d p es) :
    (editFile e p es).1 = (editFile d p es).1 := by
  cases hr : editedText? d p es with
  | error f => rw [editFile_of_error hr, editFile_of_error (h.trans hr)]
  | ok r =>
    obtain ⟨t, ds⟩ := r
    obtain ⟨d', -, -, -, h1, -⟩ := editFile_of_ok hd hr
    obtain ⟨e', -, -, -, h2, -⟩ := editFile_of_ok he (h.trans hr)
    rw [h1, h2]

/-! ## §3. One file after the other. -/

/-- Two paths do not lead to one place. -/
def Elsewhere (d : Disk) (p q : Path) : Prop :=
  ∀ pl n ql m, d.locate p = .ok (pl, n) → d.locate q = .ok (ql, m) → pl ≠ ql

theorem Elsewhere.of_sameShape {d e : Disk} (h : d.SameShape e) {p q : Path}
    (hpq : Elsewhere d p q) : Elsewhere e p q := by
  intro pl n ql m hp hq
  obtain ⟨n', hp'⟩ := Disk.exists_locate_of_sameShape h hp
  obtain ⟨m', hq'⟩ := Disk.exists_locate_of_sameShape h hq
  exact hpq pl n' ql m' hp' hq'

/-- Names that go on from one path lead to places of their own. -/
theorem Disk.elsewhere_of_goesOn (e : Disk) {base p q : Path} {ns ms : List String}
    (hp : base.GoesOn p ns) (hq : base.GoesOn q ms) (hne : ns ≠ ms) : Elsewhere e p q := by
  -- the steps of a path are those of the base, followed by the names
  have hsteps : ∀ {r : Path} {ks : List String}, base.GoesOn r ks →
      r.components.filterMap Disk.stepOf? = base.components.filterMap Disk.stepOf? ++ ks := by
    intro r ks hr
    rw [hr.2, List.filterMap_append, List.filterMap_map]
    exact congrArg _ List.filterMap_some
  -- whether a path begins at the root of the tree is seen from the base
  have habsolute : p.isAbsolute = true ↔ q.isAbsolute = true := by
    rw [Path.isAbsolute_iff_components, Path.isAbsolute_iff_components, hp.2, hq.2]
    cases base.components with
    | nil => cases ns <;> cases ms <;> simp
    | cons c cs => simp
  have hstart : e.startOf p = e.startOf q := by
    unfold Disk.startOf
    rw [Bool.eq_iff_iff.2 habsolute]
  intro pl n ql m hpl hql heq
  obtain ⟨-, a, ha, hfp⟩ := Disk.locate_eq_ok hpl
  obtain ⟨-, b, hb, hfq⟩ := Disk.locate_eq_ok hql
  rw [hstart] at ha hfp
  obtain rfl := Option.some.inj (ha.symm.trans hb)
  have hfp := Disk.follow_filter hfp
  have hfq := Disk.follow_filter hfq
  rw [Disk.filter_stepsOf, hsteps hp, Disk.follow_append] at hfp
  rw [Disk.filter_stepsOf, hsteps hq, Disk.follow_append] at hfq
  -- both ways lead through the place that the base names
  cases hbase : Disk.follow e.top (e.startOf q) a (base.components.filterMap Disk.stepOf?) with
  | error t =>
    rw [hbase] at hfp
    cases hfp
  | ok r =>
    rw [hbase] at hfp hfq
    have h1 := ((Disk.follow_names hp.1).1 hfp).1
    have h2 := ((Disk.follow_names hq.1).1 hfq).1
    simp only at h1 h2
    exact hne (List.append_cancel_left (h1.symm.trans (heq.trans h2)))

/-- Editing a file keeps the shape of the disk. -/
theorem sameShape_editFile {d : Disk} (hd : d.WellFormed) (p : Path) (es : List Edit) :
    (editFile d p es).2.WellFormed ∧ d.SameShape (editFile d p es).2 := by
  cases hr : editedText? d p es with
  | error f =>
    rw [editFile_of_error hr]
    exact ⟨hd, Disk.SameShape.refl d⟩
  | ok r =>
    obtain ⟨t, ds⟩ := r
    obtain ⟨e, pl, c, -, he, hwf, hshape, -⟩ := editFile_of_ok hd hr
    rw [he]
    exact ⟨hwf, hshape⟩

/-- Editing a file leaves what is read elsewhere as it is. -/
theorem readText_editFile {d : Disk} (hd : d.WellFormed) {p q : Path} (es : List Edit)
    (h : Elsewhere d p q) : (editFile d p es).2.readText q = d.readText q := by
  cases hr : editedText? d p es with
  | error f => rw [editFile_of_error hr]
  | ok r =>
    obtain ⟨t, ds⟩ := r
    obtain ⟨e, pl, c, hpl, he, -, hshape, hlook⟩ := editFile_of_ok hd hr
    rw [he]
    apply Disk.readText_of_sameShape hshape
    intro ql m hq
    rw [hlook, if_neg]
    exact fun heq => h pl _ ql m hpl hq heq.symm

/-- **What happens to a file does not depend on the others**, if each is at a place of its own. -/
theorem editFiles_outcomes {d : Disk} (hd : d.WellFormed) {gs : List (Path × List Edit)}
    (h : gs.Pairwise fun a b => Elsewhere d a.1 b.1) :
    (editFiles d gs).1 = gs.map fun g => (editFile d g.1 g.2).1 := by
  induction gs generalizing d with
  | nil => rfl
  | cons g gs ih =>
    obtain ⟨p, es⟩ := g
    obtain ⟨hg, hgs⟩ := List.pairwise_cons.1 h
    obtain ⟨hwf, hshape⟩ := sameShape_editFile hd p es
    show (editFile d p es).1 :: (editFiles (editFile d p es).2 gs).1
      = (editFile d p es).1 :: gs.map _
    rw [ih hwf (hgs.imp fun {a b} hab => hab.of_sameShape hshape)]
    congr 1
    apply List.map_congr_left
    intro a ha
    apply editFile_outcome hd hwf
    unfold editedText?
    rw [readText_editFile hd es (hg a ha)]

/-- Editing files keeps the shape of the disk, and leaves what is read elsewhere as it is. -/
theorem readText_editFiles_of_elsewhere {d : Disk} (hd : d.WellFormed)
    (gs : List (Path × List Edit)) :
    (editFiles d gs).2.WellFormed ∧ d.SameShape (editFiles d gs).2 ∧
      ∀ p, (∀ g ∈ gs, Elsewhere d g.1 p) → (editFiles d gs).2.readText p = d.readText p := by
  induction gs generalizing d with
  | nil => exact ⟨hd, Disk.SameShape.refl d, fun p _ => rfl⟩
  | cons g gs ih =>
    obtain ⟨q, es⟩ := g
    obtain ⟨hwf, hshape⟩ := sameShape_editFile hd q es
    obtain ⟨hwf', hshape', hread⟩ := ih hwf
    refine ⟨hwf', hshape.trans hshape', fun p hp => ?_⟩
    show (editFiles (editFile d q es).2 gs).2.readText p = _
    rw [hread p fun g hg => (hp g (List.mem_cons_of_mem _ hg)).of_sameShape hshape]
    exact readText_editFile hd es (hp _ (List.mem_cons_self ..))

/-- What is read from a file once it has been edited, or has been left as it is. -/
theorem readText_editFile_self {d : Disk} (hd : d.WellFormed) (p : Path) (es : List Edit) :
    (editFile d p es).2.readText p =
      match editedText? d p es with
      | .ok r => .ok r.1
      | .error _ => d.readText p := by
  cases hr : editedText? d p es with
  | error f => rw [editFile_of_error hr]
  | ok r =>
    obtain ⟨t, ds⟩ := r
    obtain ⟨e, pl, c, hpl, he, -, hshape, hlook⟩ := editFile_of_ok hd hr
    rw [he]
    apply Disk.readText_eq_ok.2
    refine ⟨pl, Disk.locate_of_sameShape hshape hpl ?_⟩
    rw [hlook, if_pos rfl]

/-- **What is read from a file depends on its own edits alone**: the text that they make of it, or
    what it held if they cannot be made. -/
theorem readText_editFiles_of_mem {d : Disk} (hd : d.WellFormed) {gs : List (Path × List Edit)}
    (h : gs.Pairwise fun a b => Elsewhere d a.1 b.1) {p : Path} {es : List Edit}
    (hp : (p, es) ∈ gs) : (editFiles d gs).2.readText p =
      match editedText? d p es with
      | .ok r => .ok r.1
      | .error _ => d.readText p := by
  induction gs generalizing d with
  | nil => cases hp
  | cons g gs ih =>
    obtain ⟨q, fs⟩ := g
    obtain ⟨hg, hgs⟩ := List.pairwise_cons.1 h
    obtain ⟨hwf, hshape⟩ := sameShape_editFile hd q fs
    have hgs' := hgs.imp fun {a b} hab => hab.of_sameShape hshape
    show (editFiles (editFile d q fs).2 gs).2.readText p = _
    -- the file is edited now and left alone later on, or the other way round
    rcases List.mem_cons.1 hp with heq | hp
    · cases heq
      obtain ⟨-, -, hread⟩ := readText_editFiles_of_elsewhere hwf gs
      have haway : ∀ g ∈ gs, Elsewhere (editFile d p es).2 g.1 p := by
        intro g hm pl n ql m h1 h2 he
        exact (hg g hm).of_sameShape hshape ql m pl n h2 h1 he.symm
      rw [hread p haway, readText_editFile_self hd]
    · rw [ih hwf hgs' hp]
      unfold editedText?
      rw [readText_editFile hd fs (hg _ hp)]

/-- **A file whose edits can be made holds the text that they make of it.** -/
theorem readText_editFiles {d : Disk} (hd : d.WellFormed) {gs : List (Path × List Edit)}
    (h : gs.Pairwise fun a b => Elsewhere d a.1 b.1) {p : Path} {es : List Edit}
    (hp : (p, es) ∈ gs) {t : String} {ds : List String}
    (ht : editedText? d p es = .ok (t, ds)) : (editFiles d gs).2.readText p = .ok t := by
  rw [readText_editFiles_of_mem hd h hp, ht]

/-! ## §4. What is seen. -/

/-- What is seen at a place after editing a file is as it was, unless the file is there and could be
    edited. -/
theorem look?_editFile {d : Disk} (hd : d.WellFormed) {p : Path} {es : List Edit}
    {ks : List String} (h : (editFile d p es).2.top.look? ks ≠ d.top.look? ks) :
    (editFile d p es).1.status = .succeeded ∧ ∃ n, d.locate p = .ok (ks, n) := by
  cases hr : editedText? d p es with
  | error f =>
    rw [editFile_of_error hr] at h
    exact absurd rfl h
  | ok r =>
    obtain ⟨t, ds⟩ := r
    obtain ⟨e, pl, c, hpl, he, -, -, hlook⟩ := editFile_of_ok hd hr
    rw [he] at h ⊢
    rw [hlook] at h
    split at h
    · rename_i hks
      rw [hks]
      exact ⟨rfl, _, hpl⟩
    · exact absurd rfl h

/-- **What is seen at a place after editing files is as it was**, unless one of them is there and
    could be edited. -/
theorem look?_editFiles {d : Disk} (hd : d.WellFormed) {gs : List (Path × List Edit)}
    {ks : List String} (h : (editFiles d gs).2.top.look? ks ≠ d.top.look? ks) :
    ∃ g ∈ gs, ∃ o ∈ (editFiles d gs).1, o.path = g.1 ∧ o.status = .succeeded ∧
      ∃ n, d.locate g.1 = .ok (ks, n) := by
  induction gs generalizing d with
  | nil => exact absurd rfl h
  | cons g gs ih =>
    obtain ⟨p, es⟩ := g
    obtain ⟨hwf, hshape⟩ := sameShape_editFile hd p es
    have houtcomes : (editFiles d ((p, es) :: gs)).1
        = (editFile d p es).1 :: (editFiles (editFile d p es).2 gs).1 := rfl
    rw [houtcomes]
    -- the place is changed by the first file, or else by one of the others
    by_cases hfirst : (editFile d p es).2.top.look? ks = d.top.look? ks
    · rw [← hfirst] at h
      obtain ⟨g, hg, o, ho, hpath, hok, n, hn⟩ := ih hwf h
      refine ⟨g, List.mem_cons_of_mem _ hg, o, List.mem_cons_of_mem _ ho, hpath, hok, ?_⟩
      exact Disk.exists_locate_of_sameShape hshape hn
    · obtain ⟨hok, hn⟩ := look?_editFile hd hfirst
      refine ⟨_, List.mem_cons_self .., _, List.mem_cons_self .., ?_, hok, hn⟩
      unfold editFile
      split <;> rfl

end ModuleMove
