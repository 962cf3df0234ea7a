import ModuleMove.Proofs.Edit.Jobs
import ModuleMove.Proofs.Path.Straight
import Mathlib.Data.List.Pairwise

/-!
# ISOLATED FILES — a list of edits, file by file

A list may hold edits of any files, in any order.  Each file is edited with those that are about it,
or else it is left as it is, whatever happens to the others: whether they are missing, hold no text,
or hold another one than was expected.

Main statements:
  * `editsByFile_eq` — how edits of different files lie between each other does not matter.
  * `treated_of_mem` — what happens to a file.
  * `applyEdits_isolated` — all that happens on a disk, also if files are edited at the same time.
-/

namespace ModuleMove

open ModuleMove.Path

/-! ## §1. The edits of each file. -/

/-- Two lists hold the same edits of each file, in the same order. -/
def SameByFile (es fs : List Edit) : Prop :=
  ∀ p : Path, (es.filter fun e => e.target.same p) = fs.filter fun e => e.target.same p

theorem filter_congr_of_same (es : List Edit) {p q : Path} (h : p.same q = true) :
    (es.filter fun e => e.target.same p) = es.filter fun e => e.target.same q := by
  apply List.filter_congr
  intro e _
  exact Bool.eq_iff_iff.2 ⟨fun h' => same_trans h' h, fun h' => same_trans h' (same_symm h)⟩

theorem mem_editsByFile_of_sameByFile {es fs : List Edit} (h : SameByFile es fs) {p : Path}
    {g : List Edit} (hm : (p, g) ∈ editsByFile es) : (p, g) ∈ editsByFile fs := by
  obtain ⟨hg, e, he, hep⟩ := mem_editsByFile hm
  have hefs : e ∈ fs := by
    have : e ∈ fs.filter fun f => f.target.same p := by
      rw [← h p]
      exact List.mem_filter.2 ⟨he, hep ▸ same_refl _⟩
    exact (List.mem_filter.1 this).1
  obtain ⟨q, k, hk, hsame⟩ := exists_mem_editsByFile hefs
  rw [hep] at hsame
  -- the other list has the same edits of the file, so that its first edit names the same path
  have hkg : k = g := by
    rw [hg, (mem_editsByFile hk).1, ← h q, filter_congr_of_same es hsame]
  subst hkg
  have hpq := (head?_of_mem_editsByFile hm).symm.trans (head?_of_mem_editsByFile hk)
  rwa [Option.some.inj hpq]

theorem SameByFile.symm {es fs : List Edit} (h : SameByFile es fs) : SameByFile fs es :=
  fun p => (h p).symm

/-- Edits of different files that lie next to each other may change places. -/
theorem sameByFile_swap {a b : Edit} (h : a.target.same b.target = false) (es fs : List Edit) :
    SameByFile (es ++ a :: b :: fs) (es ++ b :: a :: fs) := by
  intro p
  rw [List.filter_append, List.filter_append, List.filter_cons, List.filter_cons, List.filter_cons,
    List.filter_cons]
  -- no path is that of both edits
  cases ha : a.target.same p with
  | false => rfl
  | true =>
    cases hb : b.target.same p with
    | false => rfl
    | true =>
      rw [same_trans ha (same_symm hb)] at h
      cases h

/-- **How edits of different files lie between each other does not matter.** -/
theorem editsByFile_eq {es fs : List Edit} (h : SameByFile es fs) :
    editsByFile es = editsByFile fs :=
  (sorted_editsByFile es).eq_of_mem_iff (sorted_editsByFile fs) fun _ =>
    ⟨mem_editsByFile_of_sameByFile h, mem_editsByFile_of_sameByFile h.symm⟩

/-- Files are edited at places of their own if no path makes detours. -/
theorem pairwise_elsewhere_editsByFile {es : List Edit} (hes : ∀ b ∈ es, b.target.Direct)
    (d : Disk) : (editsByFile es).Pairwise fun a b => Elsewhere d a.1 b.1 := by
  refine (sorted_editsByFile es).imp_of_mem fun {a b} ha hb hlt => ?_
  obtain ⟨-, e, he, hea⟩ := mem_editsByFile ha
  obtain ⟨-, f, hf, hfb⟩ := mem_editsByFile hb
  obtain ⟨ns, hns⟩ := (hes e he).exists_goesOn
  obtain ⟨ms, hms⟩ := (hes f hf).exists_goesOn
  rw [hea] at hns
  rw [hfb] at hms
  refine d.elsewhere_of_goesOn hns hms ?_
  rintro rfl
  rw [compare_eq_iff.2 (same_iff.2 (hns.2.trans hms.2.symm))] at hlt
  cases hlt

/-! ## §2. What happens to a file. -/

/-- An edit that cannot be made is stale. -/
theorem Edit.isStale_of_apply {e : Edit} {content : String} {f : Failure}
    (h : e.apply content = .error f) : f.isStale = true := by
  unfold Edit.apply at h
  split at h
  · cases h
  · cases h
    rfl

theorem isStale_of_applyInTurn {es : List Edit} {content : String} {f : Failure}
    (h : applyInTurn content es = .error f) : f.isStale = true := by
  induction es generalizing content with
  | nil => cases h
  | cons e es ih =>
    rw [applyInTurn_cons] at h
    cases he : e.apply content with
    | error g =>
      rw [he] at h
      cases h
      exact Edit.isStale_of_apply he
    | ok s =>
      rw [he] at h
      exact ih h

/-- Without a conflict, the edits of a batch are made in turn. -/
theorem applyBatch_eq_map {es : List Edit} (h : firstConflict? es = none) (p : Path)
    (content : String) :
    applyBatch p content es = (applyInTurn content (makingOrder es)).map
      fun t => (t, (makingOrder es).map Edit.describe) := by
  unfold applyBatch
  rw [h]
  show (applyInTurn content (makingOrder es)).bind _ = _
  cases applyInTurn content (makingOrder es) <;> rfl

/-- A batch that cannot be made is stale. -/
theorem isStale_of_applyBatch {p : Path} {content : String} {es : List Edit} {f : Failure}
    (h : applyBatch p content es = .error f) : f.isStale = true := by
  cases hc : firstConflict? es with
  | some c =>
    unfold applyBatch at h
    rw [hc] at h
    cases h
    rfl
  | none =>
    rw [applyBatch_eq_map hc] at h
    cases hr : applyInTurn content (makingOrder es) with
    | error g =>
      rw [hr] at h
      cases h
      exact isStale_of_applyInTurn hr
    | ok t =>
      rw [hr] at h
      cases h

/-- Each edit of a batch that is made is told in words. -/
theorem length_of_applyBatch {p : Path} {content t : String} {es : List Edit} {ds : List String}
    (h : applyBatch p content es = .ok (t, ds)) : ds.length = es.length := by
  cases hc : firstConflict? es with
  | some c =>
    unfold applyBatch at h
    rw [hc] at h
    cases h
  | none =>
    rw [applyBatch_eq_map hc] at h
    cases hr : applyInTurn content (makingOrder es) with
    | error g =>
      rw [hr] at h
      cases h
    | ok u =>
      rw [hr] at h
      cases h
      rw [List.length_map, (makingOrder_perm es).length_eq]

/-- What is at a path has been left as it was. -/
structure LeftAlone (d e : Disk) (p : Path) : Prop where
  /-- The same is read there. -/
  text : e.readText p = d.readText p
  /-- The same is seen at the place that it leads to. -/
  place (ks : List String) (n : Node) (h : d.locate p = .ok (ks, n)) :
    e.top.look? ks = d.top.look? ks

/-- What has happened to a file between the disks `d` and `e`, in which the edits `es` were to be
    made. -/
inductive Treated (d e : Disk) (es : List Edit) (o : FileOutcome) : Prop where
  /-- All edits were made. -/
  | made (s t : String) (read : d.readText o.path = .ok s)
      (edits : applyBatch o.path s es = .ok (t, o.descriptions))
      (described : o.descriptions.length = es.length) (holds : e.readText o.path = .ok t)
      (status : o.status = .succeeded)
  /-- The edits cannot be made of what the file holds. -/
  | stale (s : String) (f : Failure) (read : d.readText o.path = .ok s)
      (edits : applyBatch o.path s es = .error f) (described : o.descriptions = [])
      (kept : LeftAlone d e o.path) (status : o.status = .stale f.message)
  /-- The file cannot be read. -/
  | unusable (t : FileTrouble) (read : d.readText o.path = .error t)
      (described : o.descriptions = []) (kept : LeftAlone d e o.path)
      (status : o.status = .unusable (Failure.file o.path t).message)

section

variable {d : Disk} {gs : List (Path × List Edit)}

/-- A file whose edits cannot be made is left as it was, also where others are edited. -/
theorem leftAlone_of_mem (hd : d.WellFormed) (hapart : gs.Pairwise fun a b => Elsewhere d a.1 b.1)
    {g : Path × List Edit} (hg : g ∈ gs) {f : Failure} (h : editedText? d g.1 g.2 = .error f) :
    LeftAlone d (editFiles d gs).2 g.1 where
  text := by
    rw [readText_editFiles_of_mem hd hapart hg, h]
  place := by
    intro ks n hn
    by_contra hne
    -- what has changed is a file that was edited, and no other file is at the place
    obtain ⟨k, hk, ⟨r, hr⟩, m, hm⟩ := (Editing.edited_editFiles hd hapart).changed ks hne
    have hgk : g ≠ k := by
      rintro rfl
      rw [h] at hr
      cases hr
    have hsymm : Std.Symm fun a b : Path × List Edit => Elsewhere d a.1 b.1 := ⟨fun _ _ h => h.symm⟩
    exact hapart.forall hg hk hgk ks n ks m hn hm rfl

/-- The outcomes of files count all edits that are listed for them. -/
theorem foldr_edits_outcomes (d : Disk) (gs : List (Path × List Edit)) :
    (gs.map fun g => (editFile d g.1 g.2).1).foldr (fun o n => o.edits + n) 0
      = (gs.flatMap (·.2)).length := by
  induction gs with
  | nil => rfl
  | cons g gs ih =>
    rw [List.map_cons, List.foldr_cons, ih, (path_editFile d g.1 g.2).2, List.flatMap_cons,
      List.length_append]

/-- **What happens to a file depends on what it holds and on its own edits alone.** -/
theorem treated_of_mem (hd : d.WellFormed) (hapart : gs.Pairwise fun a b => Elsewhere d a.1 b.1)
    {p : Path} {es : List Edit} (hg : (p, es) ∈ gs) :
    Treated d (editFiles d gs).2 es (editFile d p es).1 := by
  cases hr : d.readText p with
  | error t =>
    have hedited : editedText? d p es = .error (.file p t) := by
      unfold editedText?
      rw [hr]
    have hkept := leftAlone_of_mem hd hapart hg hedited
    rw [editFile_of_error hedited]
    exact .unusable t hr rfl hkept rfl
  | ok s =>
    have hedited : editedText? d p es = applyBatch p s es := by
      unfold editedText?
      rw [hr]
    cases hb : applyBatch p s es with
    | error f =>
      have hkept := leftAlone_of_mem hd hapart hg (hedited.trans hb)
      rw [editFile_of_error (hedited.trans hb)]
      refine .stale s f hr hb rfl hkept ?_
      show FileStatus.ofFailure f = _
      rw [FileStatus.ofFailure, if_pos (isStale_of_applyBatch hb)]
    | ok r =>
      obtain ⟨t, ds⟩ := r
      obtain ⟨e, pl, c, -, he, -⟩ := editFile_of_ok hd (hedited.trans hb)
      rw [he]
      exact .made s t hr hb (length_of_applyBatch hb)
        (readText_editFiles hd hapart hg (hedited.trans hb)) rfl

end

/-! ## §3. What happens on a disk. -/

/-- What has happened between the disks `d` and `e`, between which the edits `es` were to be
    made. -/
structure Isolated (d : Disk) (es : List Edit) (os : List FileOutcome) (e : Disk) : Prop where
  /-- The outcomes are in the order of the paths. -/
  sorted : os.Pairwise fun o o' => o.path.compare o'.path = .lt
  /-- Each outcome is that of a file that is to be edited. -/
  aimed : ∀ o ∈ os, ∃ b ∈ es, b.target = o.path
  /-- Each file that is to be edited has one outcome. -/
  single : ∀ b ∈ es, ∃! o, o ∈ os ∧ b.target.same o.path = true
  /-- Each edit is counted once. -/
  counted : os.foldr (fun o n => o.edits + n) 0 = es.length
  /-- A file is treated with the edits that are about it, in their order. -/
  treated : ∀ o ∈ os, Treated d e (es.filter fun b => b.target.same o.path) o
  /-- All else is left as it was. -/
  others : ∀ ks, (∀ o ∈ os, o.status = .succeeded → ∀ n, d.locate o.path ≠ .ok (ks, n)) →
    e.top.look? ks = d.top.look? ks

/-- Work on the edits `es`, in any number of jobs at the same time, comes to an end, and always to
    the same one. -/
structure AnyOrder (d : Disk) (es : List Edit) (workers : Nat) : Prop where
  /-- Work that has begun can be brought to an end. -/
  ends (s : Editing) (h : Editing.Run workers (.start d (editsByFile es)) s) :
    ∃ t, Editing.Run workers s t ∧ t.Complete
  /-- The outcomes are those of editing the files one after the other. -/
  outcomes (s : Editing) (h : Editing.Run workers (.start d (editsByFile es)) s)
    (hs : s.Complete) : s.outcomes = (applyEdits d es).1
  /-- The same is seen on the disk. -/
  disk (s : Editing) (h : Editing.Run workers (.start d (editsByFile es)) s) (hs : s.Complete)
    (ks : List String) : s.disk.top.look? ks = (applyEdits d es).2.top.look? ks

section

variable {d : Disk} {es : List Edit}

theorem isolated_applyEdits (hd : d.WellFormed) (hes : ∀ b ∈ es, b.target.Direct) :
    Isolated d es (applyEdits d es).1 (applyEdits d es).2 := by
  have hapart := pairwise_elsewhere_editsByFile hes d
  have hsorted := sorted_editsByFile es
  have houtcomes : (applyEdits d es).1
      = (editsByFile es).map fun g => (editFile d g.1 g.2).1 := editFiles_outcomes hd hapart
  have hmem : ∀ {o}, o ∈ (applyEdits d es).1 →
      ∃ g, (o.path, g) ∈ editsByFile es ∧ o = (editFile d o.path g).1 := by
    intro o ho
    rw [houtcomes] at ho
    obtain ⟨⟨p, g⟩, hg, rfl⟩ := List.mem_map.1 ho
    simp only [(path_editFile d p g).1]
    exact ⟨g, hg, rfl⟩
  have hlisted : ((applyEdits d es).1).Pairwise fun o o' => o.path.compare o'.path = .lt := by
    rw [houtcomes, List.pairwise_map]
    refine hsorted.imp fun {a b} hab => ?_
    rw [(path_editFile d a.1 a.2).1, (path_editFile d b.1 b.2).1]
    exact hab
  refine ⟨hlisted, fun o ho => ?_, fun b hb => ?_, ?_, fun o ho => ?_, fun ks hks => ?_⟩
  · obtain ⟨g, hg, -⟩ := hmem ho
    exact (mem_editsByFile hg).2
  · obtain ⟨p, g, hg, hsame⟩ := exists_mem_editsByFile hb
    refine ⟨(editFile d p g).1, ⟨?_, ?_⟩, fun o ⟨ho, hbo⟩ => ?_⟩
    · rw [houtcomes]
      exact List.mem_map_of_mem hg
    · rw [(path_editFile d p g).1]
      exact hsame
    · -- two outcomes of one file would not be in order
      obtain ⟨k, hk, heq⟩ := hmem ho
      have hdiffer : (editsByFile es).Pairwise fun a b => a.1.same b.1 = false :=
        hsorted.imp fun {a b} hab => same_eq_false (by rw [hab]; decide)
      have hpair : (o.path, k) = (p, g) :=
        eq_of_same Prod.fst hdiffer hk hg (same_trans (same_symm hbo) hsame)
      cases hpair
      exact heq
  · rw [houtcomes, foldr_edits_outcomes, (perm_editsByFile es).length_eq]
  · obtain ⟨g, hg, heq⟩ := hmem ho
    have htreated := treated_of_mem hd hapart hg
    rw [← heq] at htreated
    rwa [← (mem_editsByFile hg).1]
  · by_contra hne
    obtain ⟨g, -, o, ho, hpath, hok, n, hn⟩ := look?_editFiles hd hne
    exact hks o ho hok n (hpath ▸ hn)

theorem anyOrder_applyEdits (hd : d.WellFormed) (hes : ∀ b ∈ es, b.target.Direct) {workers : Nat}
    (hw : 0 < workers) : AnyOrder d es workers := by
  have hapart := pairwise_elsewhere_editsByFile hes d
  have hstart := Editing.follows_start hd (editsByFile es)
  exact ⟨fun s _ => Editing.exists_complete hw s,
    fun s hs => Editing.outcomes_of_complete hd hapart (Editing.Run.follows hs hd hapart hstart),
    fun s hs => Editing.look?_of_complete hd hapart (Editing.Run.follows hs hd hapart hstart)⟩

end

/-- **Each file is edited with its own edits or left as it was**, whatever the other edits are
    about, however the edits of different files lie between each other, and however many files are
    edited at the same time. -/
theorem applyEdits_isolated {d : Disk} (hd : d.WellFormed) {es : List Edit}
    (hes : ∀ b ∈ es, b.target.Direct) :
    Isolated d es (applyEdits d es).1 (applyEdits d es).2 ∧
      (∀ fs, SameByFile es fs → applyEdits d fs = applyEdits d es) ∧
      ∀ (jobs : Option Nat) (shared : Nat), 0 < shared →
        AnyOrder d es (Editing.workersFor jobs shared) := by
  refine ⟨isolated_applyEdits hd hes, fun fs h => ?_, fun jobs shared h => ?_⟩
  · unfold applyEdits
    rw [editsByFile_eq h]
  · exact anyOrder_applyEdits hd hes (Editing.workersFor_pos jobs h)

/-- A disk with a source file, another one, and a file that holds no text. -/
def mixedDisk : Disk where
  top := .directory [("a.ts", .file (.text "import './x';")), ("b.ts", .file (.text "other")),
    ("c.ts", .file (.bytes [255]))]
  here := []

/-- Edits of the files of the disk, and of one that is missing. -/
def mixedEdits : List Edit :=
  [⟨⟨"/b.ts"⟩, 0, .remove "text"⟩, ⟨⟨"/a.ts"⟩, 10, .insert "q/"⟩, ⟨⟨"/d.ts"⟩, 0, .insert "x"⟩,
    ⟨⟨"/a.ts"⟩, 0, .replace "import" "export * from"⟩, ⟨⟨"/c.ts"⟩, 0, .insert "x"⟩]

theorem wellFormed_mixedDisk : mixedDisk.WellFormed := by
  refine ⟨?_, _, rfl⟩
  simp only [mixedDisk, Node.WellFormed, Node.AllWellFormed]
  decide

/-- Five edits of four files, also if the first two change places and two files are edited at the
    same time. -/
theorem mixed_files_isolated :
    mixedDisk.WellFormed ∧ (∀ b ∈ mixedEdits, b.target.Direct) ∧ 0 < 8 ∧
      (editsByFile mixedEdits).map (fun g => (g.1, g.2.length))
        = [(⟨"/a.ts"⟩, 2), (⟨"/b.ts"⟩, 1), (⟨"/c.ts"⟩, 1), (⟨"/d.ts"⟩, 1)] ∧
      Isolated mixedDisk mixedEdits (applyEdits mixedDisk mixedEdits).1
        (applyEdits mixedDisk mixedEdits).2 ∧
      applyEdits mixedDisk (⟨⟨"/a.ts"⟩, 10, .insert "q/"⟩ :: ⟨⟨"/b.ts"⟩, 0, .remove "text"⟩ ::
        mixedEdits.drop 2) = applyEdits mixedDisk mixedEdits ∧
      ∃ s, Editing.Run 2 (.start mixedDisk (editsByFile mixedEdits)) s ∧
        s.outcomes = (applyEdits mixedDisk mixedEdits).1 := by
  have hes : ∀ b ∈ mixedEdits, b.target.Direct := by decide +kernel
  obtain ⟨hisolated, horder, hjobs⟩ := applyEdits_isolated wellFormed_mixedDisk hes
  have hany : AnyOrder mixedDisk mixedEdits 2 := hjobs (some 2) 8 (by decide)
  obtain ⟨s, hs, hcomplete⟩ := hany.ends _ .refl
  refine ⟨wellFormed_mixedDisk, hes, by decide, by decide +kernel, hisolated, horder _ ?_, s, hs,
    hany.outcomes s hs hcomplete⟩
  exact sameByFile_swap (by decide +kernel) [] _

end ModuleMove
