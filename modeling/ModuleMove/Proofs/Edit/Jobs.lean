import ModuleMove.Proofs.Edit.Files
import Mathlib.Logic.Relation

/-!
# JOBS — files that are edited at the same time

Editing a file takes two steps: the file is read, and later on what its edits make of it is written
in its place.  Workers take the jobs in any order, and between the two steps of one there may be
steps of others.  As each file is at a place of its own, no step disturbs another job, and the end
is that of editing the files one after the other.

Main statements:
  * `Editing.Step.follows` — what a step keeps.
  * `Editing.exists_complete` — work that has begun can be brought to an end.
  * `Editing.outcomes_of_complete`, `Editing.look?_of_complete` — all work that has come to an end
    has the same outcomes and shows the same disk.
-/

namespace ModuleMove

/-! ## §1. Jobs and steps. -/

/-- How far the work on a file has come. -/
inductive Progress where
  /-- Nothing has been done. -/
  | waiting
  /-- The file has been read; this is what its edits make of it. -/
  | held (made : Except Failure (String × List String))
  /-- The work is over. -/
  | done (outcome : FileOutcome)

/-- A file with its edits, and the work on it. -/
structure Job where
  /-- The file. -/
  path : Path
  /-- Its edits. -/
  edits : List Edit
  /-- The work. -/
  progress : Progress

namespace Job

/-- Whether a worker is busy with the job. -/
def isHeld (j : Job) : Bool :=
  match j.progress with
  | .held _ => true
  | _ => false

/-- What has come of the job, if it is over. -/
def outcome? (j : Job) : Option FileOutcome :=
  match j.progress with
  | .done o => some o
  | _ => none

/-- The number of steps that are left. -/
def stepsLeft (j : Job) : Nat :=
  match j.progress with
  | .waiting => 2
  | .held _ => 1
  | .done _ => 0

end Job

/-- Writes what the edits of a file make of it, unless they cannot be made; there are `n` of
    them. -/
def writeFile (d : Disk) (p : Path) (n : Nat) :
    Except Failure (String × List String) → FileOutcome × Disk
  | .error f => (⟨p, .ofFailure f, [], n⟩, d)
  | .ok (t, ds) =>
    match d.write p t with
    | .error e => (⟨p, .ofFailure (.file p e), [], n⟩, d)
    | .ok d => (⟨p, .succeeded, ds, n⟩, d)

/-- Without anything in between, reading and writing is editing. -/
theorem writeFile_editedText? (d : Disk) (p : Path) (es : List Edit) :
    writeFile d p es.length (editedText? d p es) = editFile d p es := by
  unfold editFile editFile? editedText?
  cases d.readText p with
  | error e => rfl
  | ok s =>
    simp only
    cases applyBatch p s es with
    | error f => rfl
    | ok r =>
      simp only [writeFile]
      cases d.write p r.1 with
      | error e => rfl
      | ok e => rfl

/-- A disk, and jobs that are done on it. -/
structure Editing where
  /-- The disk. -/
  disk : Disk
  /-- The jobs, in the order in which their outcomes are listed. -/
  jobs : List Job

namespace Editing

/-- Nothing has been done yet. -/
def start (d : Disk) (gs : List (Path × List Edit)) : Editing :=
  ⟨d, gs.map fun g => ⟨g.1, g.2, .waiting⟩⟩

/-- The outcomes of the jobs that are over. -/
def outcomes (s : Editing) : List FileOutcome := s.jobs.filterMap Job.outcome?

/-- All jobs are over. -/
def Complete (s : Editing) : Prop := ∀ j ∈ s.jobs, j.outcome?.isSome = true

/-- What workers may do next, of whom there are so many. -/
inductive Step (workers : Nat) : Editing → Editing → Prop where
  /-- A worker who is free reads a file. -/
  | read (d : Disk) (as bs : List Job) (p : Path) (es : List Edit)
      (free : (as ++ ⟨p, es, .waiting⟩ :: bs).countP Job.isHeld < workers) :
      Step workers ⟨d, as ++ ⟨p, es, .waiting⟩ :: bs⟩
        ⟨d, as ++ ⟨p, es, .held (editedText? d p es)⟩ :: bs⟩
  /-- A worker writes what the edits made of a file when it was read. -/
  | write (d : Disk) (as bs : List Job) (p : Path) (es : List Edit)
      (made : Except Failure (String × List String)) :
      Step workers ⟨d, as ++ ⟨p, es, .held made⟩ :: bs⟩
        ⟨(writeFile d p es.length made).2,
          as ++ ⟨p, es, .done (writeFile d p es.length made).1⟩ :: bs⟩

/-- The number of workers: at least one, if a number is asked for, and `shared` otherwise. -/
def workersFor (jobs : Option Nat) (shared : Nat) : Nat :=
  match jobs with
  | some n => max n 1
  | none => shared

theorem workersFor_pos (jobs : Option Nat) {shared : Nat} (h : 0 < shared) :
    0 < workersFor jobs shared := by
  cases jobs with
  | some n => exact Nat.lt_of_lt_of_le Nat.one_pos (Nat.le_max_right n 1)
  | none => exact h

/-- What workers may have done after some time. -/
abbrev Run (workers : Nat) : Editing → Editing → Prop := Relation.ReflTransGen (Step workers)

/-! ## §2. What a step keeps. -/

end Editing

theorem Elsewhere.symm {d : Disk} {p q : Path} (h : Elsewhere d p q) : Elsewhere d q p :=
  fun pl n ql m hp hq he => h ql m pl n hq hp he.symm

/-- The work on a file is as far as it would be without the others: `d` is the disk as it was at
    first, `e` as it is now. -/
def Job.Undisturbed (d e : Disk) (j : Job) : Prop :=
  match j.progress with
  | .waiting => e.readText j.path = d.readText j.path
  | .held made =>
    e.readText j.path = d.readText j.path ∧ made = editedText? d j.path j.edits
  | .done o =>
    o = (editFile d j.path j.edits).1 ∧
      e.readText j.path = (editFile d j.path j.edits).2.readText j.path

/-- What is read at the file decides. -/
theorem Job.Undisturbed.of_readText {d e f : Disk} {j : Job} (h : j.Undisturbed d e)
    (hread : f.readText j.path = e.readText j.path) : j.Undisturbed d f := by
  unfold Job.Undisturbed at *
  rw [hread]
  exact h

namespace Editing

variable {workers : Nat} {d : Disk} {gs : List (Path × List Edit)} {s t : Editing}

/-- Work on files that began on the disk `d`. -/
structure Follows (d : Disk) (gs : List (Path × List Edit)) (s : Editing) : Prop where
  /-- Each file with its edits is a job. -/
  groups : s.jobs.map (fun j => (j.path, j.edits)) = gs
  /-- The disk is well-formed. -/
  wellFormed : s.disk.WellFormed
  /-- Only texts have changed. -/
  shape : d.SameShape s.disk
  /-- No job disturbs another one. -/
  undisturbed : ∀ j ∈ s.jobs, j.Undisturbed d s.disk
  /-- A place that has changed is that of a file whose edits have been made. -/
  changed : ∀ ks, s.disk.top.look? ks ≠ d.top.look? ks →
    ∃ g ∈ gs, (∃ r, editedText? d g.1 g.2 = .ok r) ∧ ∃ n, d.locate g.1 = .ok (ks, n)

theorem follows_start (hd : d.WellFormed) (gs : List (Path × List Edit)) :
    Follows d gs (start d gs) where
  groups := by
    unfold start
    rw [List.map_map]
    exact List.map_id _
  wellFormed := hd
  shape := Disk.SameShape.refl d
  undisturbed := by
    intro j hj
    obtain ⟨g, -, rfl⟩ := List.mem_map.1 hj
    exact rfl
  changed := fun ks h => absurd rfl h

/-- The files of the other jobs are elsewhere. -/
theorem Follows.elsewhere {e : Disk} {as bs : List Job} {p : Path} {es : List Edit} {g : Progress}
    (hs : Follows d gs ⟨e, as ++ ⟨p, es, g⟩ :: bs⟩)
    (hapart : gs.Pairwise fun a b => Elsewhere d a.1 b.1) :
    ∀ j ∈ as ++ bs, Elsewhere e p j.path := by
  have hgs := hs.groups
  rw [List.map_append, List.map_cons] at hgs
  rw [← hgs, List.pairwise_append] at hapart
  obtain ⟨-, hbehind, hfront⟩ := hapart
  intro j hj
  rcases List.mem_append.1 hj with hj | hj
  · exact (hfront _ (List.mem_map_of_mem hj) _ (List.mem_cons_self ..)).symm.of_sameShape hs.shape
  · exact ((List.pairwise_cons.1 hbehind).1 _ (List.mem_map_of_mem hj)).of_sameShape hs.shape

/-- A file that is read is still what it was at first. -/
theorem Follows.read {e : Disk} {as bs : List Job} {p : Path} {es : List Edit}
    (hs : Follows d gs ⟨e, as ++ ⟨p, es, .waiting⟩ :: bs⟩) :
    Follows d gs ⟨e, as ++ ⟨p, es, .held (editedText? e p es)⟩ :: bs⟩ := by
  have hread : e.readText p = d.readText p := hs.undisturbed ⟨p, es, .waiting⟩ (by simp)
  refine ⟨?_, hs.wellFormed, hs.shape, fun j hj => ?_, hs.changed⟩
  · rw [← hs.groups]
    simp
  · rcases List.mem_append.1 hj with hj | hj
    · exact hs.undisturbed j (List.mem_append_left _ hj)
    rcases List.mem_cons.1 hj with rfl | hj
    · refine ⟨hread, ?_⟩
      unfold editedText?
      rw [hread]
    · exact hs.undisturbed j (by simp [hj])

/-- A file that is seen to change when it is edited can be edited. -/
theorem editedText?_of_changed {e : Disk} {p : Path} {es : List Edit} {ks : List String}
    (h : (editFile e p es).2.top.look? ks ≠ e.top.look? ks) : ∃ r, editedText? e p es = .ok r := by
  cases hr : editedText? e p es with
  | ok r => exact ⟨r, rfl⟩
  | error f =>
    rw [editFile_of_error hr] at h
    exact absurd rfl h

/-- A file that is written gets what its edits made of it when it was read, as if it were edited
    now. -/
theorem Follows.write {e : Disk} {as bs : List Job} {p : Path} {es : List Edit}
    {made : Except Failure (String × List String)} (hd : d.WellFormed)
    (hapart : gs.Pairwise fun a b => Elsewhere d a.1 b.1)
    (hs : Follows d gs ⟨e, as ++ ⟨p, es, .held made⟩ :: bs⟩) :
    Follows d gs ⟨(writeFile e p es.length made).2,
      as ++ ⟨p, es, .done (writeFile e p es.length made).1⟩ :: bs⟩ := by
  obtain ⟨hread, hmade⟩ : e.readText p = d.readText p ∧ made = editedText? d p es :=
    hs.undisturbed ⟨p, es, .held made⟩ (by simp)
  have hedited : editedText? e p es = editedText? d p es := by
    unfold editedText?
    rw [hread]
  have hwrite : writeFile e p es.length made = editFile e p es := by
    rw [hmade, ← hedited, writeFile_editedText?]
  rw [hwrite]
  obtain ⟨hwf, hshape⟩ := sameShape_editFile hs.wellFormed p es
  have hkeep : ∀ j ∈ as ++ bs, j.Undisturbed d (editFile e p es).2 := fun j hj =>
    (hs.undisturbed j (by simpa using (List.mem_append.1 hj).imp_right .inr)).of_readText
      (readText_editFile hs.wellFormed es (hs.elsewhere hapart j hj))
  refine ⟨?_, hwf, hs.shape.trans hshape, fun j hj => ?_, fun ks hks => ?_⟩
  · rw [← hs.groups]
    simp
  · rcases List.mem_append.1 hj with hj | hj
    · exact hkeep j (List.mem_append_left _ hj)
    rcases List.mem_cons.1 hj with rfl | hj
    · refine ⟨editFile_outcome hd hs.wellFormed hedited, ?_⟩
      rw [readText_editFile_self hs.wellFormed, readText_editFile_self hd, hedited, hread]
    · exact hkeep j (List.mem_append_right _ hj)
  · -- what changes now is the file that is written
    by_cases hnow : (editFile e p es).2.top.look? ks = e.top.look? ks
    · rw [hnow] at hks
      exact hs.changed ks hks
    · obtain ⟨-, n, hn⟩ := look?_editFile hs.wellFormed hnow
      refine ⟨(p, es), ?_, hedited ▸ editedText?_of_changed hnow,
        Disk.exists_locate_of_sameShape hs.shape hn⟩
      rw [← hs.groups]
      simp

/-- **A step disturbs no other job.** -/
theorem Step.follows (h : Step workers s t) (hd : d.WellFormed)
    (hapart : gs.Pairwise fun a b => Elsewhere d a.1 b.1) (hs : Follows d gs s) :
    Follows d gs t := by
  cases h with
  | read => exact hs.read
  | write => exact hs.write hd hapart

theorem Run.follows (h : Run workers s t) (hd : d.WellFormed)
    (hapart : gs.Pairwise fun a b => Elsewhere d a.1 b.1) (hs : Follows d gs s) :
    Follows d gs t := by
  induction h with
  | refl => exact hs
  | tail _ hstep ih => exact hstep.follows hd hapart ih

/-! ## §3. Work comes to an end. -/

/-- The number of steps that are left. -/
def stepsLeft (s : Editing) : Nat := s.jobs.foldr (fun j n => j.stepsLeft + n) 0

theorem foldr_stepsLeft_append (as bs : List Job) :
    (as ++ bs).foldr (fun j n => j.stepsLeft + n) 0
      = as.foldr (fun j n => j.stepsLeft + n) 0 + bs.foldr (fun j n => j.stepsLeft + n) 0 := by
  induction as with
  | nil => rw [List.nil_append, List.foldr_nil, Nat.zero_add]
  | cons a as ih => rw [List.cons_append, List.foldr_cons, List.foldr_cons, ih, Nat.add_assoc]

/-- Each step is one of those that were left. -/
theorem Step.stepsLeft (h : Step workers s t) : s.stepsLeft = t.stepsLeft + 1 := by
  unfold Editing.stepsLeft
  cases h with
  | read e as bs p es free =>
    rw [foldr_stepsLeft_append, foldr_stepsLeft_append, List.foldr_cons, List.foldr_cons]
    show _ + (2 + _) = _ + (1 + _) + 1
    omega
  | write e as bs p es made =>
    rw [foldr_stepsLeft_append, foldr_stepsLeft_append, List.foldr_cons, List.foldr_cons]
    show _ + (1 + _) = _ + (0 + _) + 1
    omega

/-- As long as there is work left, somebody can do some of it. -/
theorem exists_step (hw : 0 < workers) (h : ¬ s.Complete) : ∃ t, Step workers s t := by
  obtain ⟨e, js⟩ := s
  -- somebody writes what is held, and if nothing is held, all workers are free
  by_cases hheld : ∃ j ∈ js, j.isHeld = true
  · obtain ⟨⟨p, es, pr⟩, hj, hpr⟩ := hheld
    obtain ⟨as, bs, rfl⟩ := List.append_of_mem hj
    cases pr with
    | waiting => cases hpr
    | held made => exact ⟨_, .write e as bs p es made⟩
    | done o => cases hpr
  · have hnone : js.countP Job.isHeld = 0 := by
      rw [List.countP_eq_zero]
      exact fun j hj hp => hheld ⟨j, hj, hp⟩
    unfold Complete at h
    push Not at h
    obtain ⟨⟨p, es, pr⟩, hj, hpr⟩ := h
    obtain ⟨as, bs, rfl⟩ := List.append_of_mem hj
    cases pr with
    | waiting => exact ⟨_, .read e as bs p es (by omega)⟩
    | held made => exact absurd ⟨_, hj, rfl⟩ hheld
    | done o => exact absurd rfl hpr

/-- **Work that has begun can be brought to an end.** -/
theorem exists_complete (hw : 0 < workers) (s : Editing) :
    ∃ t, Run workers s t ∧ t.Complete := by
  induction hn : s.stepsLeft generalizing s with
  | zero =>
    refine ⟨s, .refl, ?_⟩
    by_contra h
    obtain ⟨t, ht⟩ := exists_step hw h
    have := ht.stepsLeft
    omega
  | succ n ih =>
    by_cases h : s.Complete
    · exact ⟨s, .refl, h⟩
    · obtain ⟨t, ht⟩ := exists_step hw h
      have hleft := ht.stepsLeft
      obtain ⟨u, hu, hcomplete⟩ := ih t (by omega)
      exact ⟨u, .head ht hu, hcomplete⟩

/-! ## §4. All ends are the same. -/

/-- **The outcomes are those of editing the files one after the other.** -/
theorem outcomes_of_complete (hd : d.WellFormed)
    (hapart : gs.Pairwise fun a b => Elsewhere d a.1 b.1) (hs : Follows d gs s)
    (h : s.Complete) : s.outcomes = (editFiles d gs).1 := by
  have hall : ∀ j ∈ s.jobs, j.outcome? = some (editFile d j.path j.edits).1 := by
    intro j hj
    obtain ⟨p, es, pr⟩ := j
    have hdone := h _ hj
    have hun := hs.undisturbed _ hj
    cases pr with
    | waiting => cases hdone
    | held made => cases hdone
    | done o => exact congrArg some hun.1
  rw [editFiles_outcomes hd hapart, ← hs.groups, List.map_map]
  unfold outcomes
  rw [List.filterMap_congr hall]
  exact congrFun List.filterMap_eq_map' _

/-- Texts are where the edits have put them, and nothing else has changed. -/
structure Edited (d : Disk) (gs : List (Path × List Edit)) (e : Disk) : Prop where
  /-- Only texts have changed. -/
  shape : d.SameShape e
  /-- A file whose edits can be made holds what they make of it. -/
  holds : ∀ g ∈ gs, ∀ r, editedText? d g.1 g.2 = .ok r → e.readText g.1 = .ok r.1
  /-- A place that has changed is that of such a file. -/
  changed : ∀ ks, e.top.look? ks ≠ d.top.look? ks →
    ∃ g ∈ gs, (∃ r, editedText? d g.1 g.2 = .ok r) ∧ ∃ n, d.locate g.1 = .ok (ks, n)

/-- There is one way only to be edited. -/
theorem Edited.look?_eq {e f : Disk} (he : Edited d gs e) (hf : Edited d gs f)
    (ks : List String) : e.top.look? ks = f.top.look? ks := by
  by_cases h : ∃ g ∈ gs, (∃ r, editedText? d g.1 g.2 = .ok r) ∧ ∃ n, d.locate g.1 = .ok (ks, n)
  · obtain ⟨g, hg, ⟨r, hr⟩, n, hn⟩ := h
    -- on both disks the file holds what its edits make of it
    have htext : ∀ {x : Disk}, Edited d gs x → x.top.look? ks = some (some (.text r.1)) := by
      intro x hx
      obtain ⟨pl, hpl⟩ := Disk.readText_eq_ok.1 (hx.holds g hg r hr)
      obtain ⟨m, hm⟩ := Disk.exists_locate_of_sameShape hx.shape hpl
      rw [hn] at hm
      cases hm
      unfold Node.look?
      rw [Disk.find?_of_locate hpl]
      rfl
    rw [htext he, htext hf]
  · have hkept : ∀ {x : Disk}, Edited d gs x → x.top.look? ks = d.top.look? ks := fun hx =>
      not_not.1 fun hne => h (hx.changed ks hne)
    rw [hkept he, hkept hf]

theorem edited_editFiles (hd : d.WellFormed)
    (hapart : gs.Pairwise fun a b => Elsewhere d a.1 b.1) : Edited d gs (editFiles d gs).2 where
  shape := (readText_editFiles_of_elsewhere hd gs).2.1
  holds := fun g hg r hr => readText_editFiles hd hapart hg hr
  changed := by
    intro ks h
    obtain ⟨g, hg, o, ho, hpath, hok, hn⟩ := look?_editFiles hd h
    rw [editFiles_outcomes hd hapart] at ho
    obtain ⟨g', hg', rfl⟩ := List.mem_map.1 ho
    rw [(path_editFile d g'.1 g'.2).1] at hpath
    refine ⟨g', hg', ?_, hpath ▸ hn⟩
    cases hr : editedText? d g'.1 g'.2 with
    | ok r => exact ⟨r, rfl⟩
    | error f =>
      rw [editFile_of_error hr] at hok
      cases f <;> cases hok

theorem Follows.edited (hd : d.WellFormed) (hs : Follows d gs s) (h : s.Complete) :
    Edited d gs s.disk where
  shape := hs.shape
  holds := by
    intro g hg r hr
    rw [← hs.groups] at hg
    obtain ⟨⟨p, es, pr⟩, hj, rfl⟩ := List.mem_map.1 hg
    have hdone := h _ hj
    have hun := hs.undisturbed _ hj
    cases pr with
    | waiting => cases hdone
    | held made => cases hdone
    | done o =>
      have hread : s.disk.readText p = (editFile d p es).2.readText p := hun.2
      rw [readText_editFile_self hd, hr] at hread
      exact hread
  changed := hs.changed

/-- **What is seen on the disk is as after editing the files one after the other.** -/
theorem look?_of_complete (hd : d.WellFormed)
    (hapart : gs.Pairwise fun a b => Elsewhere d a.1 b.1) (hs : Follows d gs s)
    (h : s.Complete) (ks : List String) :
    s.disk.top.look? ks = (editFiles d gs).2.top.look? ks :=
  (hs.edited hd h).look?_eq (edited_editFiles hd hapart) ks

end Editing

end ModuleMove
