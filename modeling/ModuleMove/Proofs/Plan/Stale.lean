import ModuleMove.Proofs.Plan.Rewritten

/-!
# STALE FILES — a plan that meets other texts than those it was made for

Between planning and editing, a file may have been changed in any way.  The edits of a plan are as
small as they can be, and an edit only looks at what it takes away.  So a file is edited exactly if
everything that its edits take away still stands in its place; otherwise it is left as it is.  What
the edits leave alone may have changed unnoticed, also in the middle of a specifier.

Main statements:
  * `later_edits_fit` — what is known about a specifier whose file has been edited, and that all
    other files are left as they are.
  * `edited_with_other_specifier` — a file is edited although its specifier has become another one.
-/

namespace ModuleMove

open ModuleMove.Path

namespace Preparation

section

variable {x : Preparation} {e : Disk}

/-! ## §1. What becomes of a file. -/

/-- A file is edited exactly if the text after its edits can be made. -/
theorem status_editFile_iff (he : e.WellFormed) (p : Path) (es : List Edit) :
    (editFile e p es).1.status = .succeeded ↔ ∃ r, editedText? e p es = .ok r := by
  cases hr : editedText? e p es with
  | ok r =>
    obtain ⟨t, ds⟩ := r
    obtain ⟨d, pl, c, -, hd, -⟩ := editFile_of_ok he hr
    rw [hd]
    simp
  | error f =>
    rw [editFile_of_error hr]
    have hne : FileStatus.ofFailure f ≠ .succeeded := by
      unfold FileStatus.ofFailure
      split <;> simp
    simp [hne]

/-- **The edits of a file can be made exactly if they are not in conflict and all of them fit what
    it holds.** -/
theorem editedText?_isOk_iff {p : Path} {es : List Edit} (hs : ∀ b ∈ es, b.Substantial)
    (hb : ∀ b ∈ es, b.Bounded) :
    (∃ r, editedText? e p es = .ok r) ↔ ∃ s, e.readText p = .ok s ∧
      (es.Pairwise fun a b => a.conflicts b = false) ∧ ∀ b ∈ es, b.FitsIn s.toList := by
  unfold editedText?
  cases hr : e.readText p with
  | error t => simp
  | ok s =>
    constructor
    · rintro ⟨r, hok⟩
      exact ⟨s, rfl, fitsIn_of_applyBatch hs hb hok⟩
    · rintro ⟨_, ⟨⟩, hc, hfit⟩
      exact ⟨_, applyBatch_eq_ok p s hs hb hc hfit⟩

/-- The edits of a plan name what they take away. -/
theorem Sound.substantial (hx : x.Sound) {b : Edit} (hb : b ∈ x.plan.edits) : b.Substantial := by
  obtain ⟨f, s, hf⟩ := hx.placed hb
  exact hf.substantial

/-- **What becomes of a file on a later disk**: it is edited if all of its edits fit, and else it is
    left as it is. -/
theorem Sound.later_outcome (hx : x.Sound) (he : e.WellFormed) {o : FileOutcome}
    (ho : o ∈ (applyEdits e x.plan.edits).1) :
    (o.status = .succeeded ↔ ∃ s, e.readText o.path = .ok s ∧
      ((x.plan.edits.filter fun b => b.target.same o.path).Pairwise
        fun a b => a.conflicts b = false) ∧
      ∀ b ∈ x.plan.edits.filter (fun b => b.target.same o.path), b.FitsIn s.toList) ∧
    (o.status ≠ .succeeded →
      (applyEdits e x.plan.edits).2.readText o.path = e.readText o.path) := by
  obtain ⟨es, hg, houtcome⟩ := hx.exists_group he ho
  have hmem : ∀ b ∈ es, b ∈ x.plan.edits := by
    rw [(mem_editsByFile hg).1]
    exact fun b hb => (List.mem_filter.1 hb).1
  have hstatus : o.status = .succeeded ↔ ∃ r, ModuleMove.editedText? e o.path es = .ok r := by
    rw [← status_editFile_iff he, houtcome]
  constructor
  · -- the edits that are gathered for a path are those of the plan that are about it
    rw [hstatus, ← (mem_editsByFile hg).1]
    exact editedText?_isOk_iff (fun b hb => hx.substantial (hmem b hb))
      fun b hb => hx.bounded (hmem b hb)
  · intro hne
    unfold applyEdits
    rw [readText_editFiles_of_mem he (hx.pairwise_elsewhere e) hg]
    cases hr : ModuleMove.editedText? e o.path es with
    | error f => rfl
    | ok r => exact absurd (hstatus.2 ⟨r, hr⟩) hne

/-! ## §2. What an edit looks at. -/

/-- What an edit takes away is a part of a specifier, at its place there. -/
def TakesPart (b : Edit) (r : Reference) : Prop :=
  ∃ u v, r.specifier = u ++ b.expected ++ v ∧ b.offset = r.span.start + byteLength u.toList

/-- In a file that travels, a whole specifier is taken away. -/
theorem expected_of_travels {f : ScannedFile} {r : Reference} {b : Edit}
    (ht : x.unit.travels f.path = true) (h : x.referenceEdit? f r = some b) :
    b.expected = r.specifier := by
  unfold MovedUnit.travels at ht
  obtain ⟨m, hm⟩ := Option.isSome_iff_exists.1 ht
  unfold referenceEdit? at h
  rw [hm] at h
  obtain ⟨wanted, -, -, rfl⟩ := mem_ownEdit? h
  rfl

end

end Preparation

/-- **Edits are made where what they take away still stands.**  A plan meets a later disk, on which
    its files may hold anything.  Each file that it edits a reference of has an outcome.  If the
    file has been edited, then each of its edits fitted what it held; the edit of a reference takes
    away a part of its specifier, and in a file that travels all of it.  If not, the file holds what
    it held. -/
theorem later_edits_fit {d e : Disk} {p : Project} {old new : Path} {pl : Plan}
    (hd : d.WellFormed) (he : e.WellFormed) (h : plan d p old new = .ok pl) :
    ∃ x, Preparation.make d p old new = .ok x ∧ pl = x.plan ∧
      (∀ o ∈ (applyEdits e pl.edits).1,
        (o.status = .succeeded ↔ ∃ s, e.readText o.path = .ok s ∧
          ((pl.edits.filter fun b => b.target.same o.path).Pairwise
            fun a b => a.conflicts b = false) ∧
          ∀ b ∈ pl.edits.filter (fun b => b.target.same o.path), b.FitsIn s.toList) ∧
        (o.status ≠ .succeeded →
          (applyEdits e pl.edits).2.readText o.path = e.readText o.path)) ∧
      ∀ f ∈ x.index.scanned, ∀ r ∈ x.rewrittenReferences f, ∀ b, x.referenceEdit? f r = some b →
        (∃ s, d.readText f.path = .ok s ∧ r.StandsIn s.toList) ∧
        Preparation.TakesPart b r ∧
        (x.unit.travels f.path = true → b.expected = r.specifier) ∧
        (∃ o ∈ (applyEdits e pl.edits).1, o.path.same f.path = true) ∧
        ∀ o ∈ (applyEdits e pl.edits).1, o.path.same f.path = true → o.status = .succeeded →
          ∃ s, e.readText o.path = .ok s ∧ b.FitsIn s.toList := by
  obtain ⟨x, hx, rfl⟩ := Preparation.plan_eq_ok h
  have hsound := Preparation.sound_of_make hd hx
  obtain ⟨rfl, -, -⟩ := Preparation.unit_of_make hx
  refine ⟨x, hx, rfl, fun o ho => hsound.later_outcome he ho, fun f hf r hr b hb => ?_⟩
  obtain ⟨s, hs⟩ := hsound.shows hf
  -- the edit of a reference is among the edits that its file is given
  have hmem : b ∈ x.plan.edits.filter fun b => b.target.same f.path :=
    (hsound.mem_edits_iff hs).2 ⟨Preparation.specifierSite r (x.referenceEdit? f r),
      List.mem_append_left _ (List.mem_map_of_mem hr), hb⟩
  obtain ⟨hplan, hsame⟩ := List.mem_filter.1 hmem
  obtain ⟨hrf, hrelative⟩ := Preparation.mem_rewrittenReferences hr
  obtain ⟨-, u, v, huv, ho⟩ := hs.holds_specifierSite hrf hrelative (fun _ he => he) b hb
  refine ⟨⟨s, hs.text, hs.standsIn (Preparation.mem_rewrittenReferences hr).1⟩, ⟨u, v, huv, ho⟩,
    fun ht => Preparation.expected_of_travels ht hb, ?_, fun o ho hpath hok => ?_⟩
  · obtain ⟨o, ho, hpath⟩ := hsound.exists_outcome he hplan
    exact ⟨o, ho, same_trans hpath hsame⟩
  · obtain ⟨t, ht, -, hfit⟩ := (hsound.later_outcome he ho).1.1 hok
    exact ⟨t, ht, hfit b (List.mem_filter.2 ⟨hplan, same_trans hsame (same_symm hpath)⟩)⟩

/-! ## §3. Two projects that change. -/

/-- The busy disk, with other specifiers in two files and less in a third. -/
def laterDisk : Disk where
  top := .directory [("a.ts", .file (.text "import './foo';\nimport './foo/m';\n")),
    ("index.ts", .file (.text "export * from './lib';\n")),
    ("lib", .directory [("m.ts", .file (.text "import '../b';\n"))]),
    ("q", .directory [("index.ts", .file (.text ""))])]
  here := []

theorem wellFormed_laterDisk : laterDisk.WellFormed := by
  refine ⟨?_, _, rfl⟩
  simp only [laterDisk, Node.WellFormed, Node.AllWellFormed]
  decide

/-- The file of the busy disk that names the directory twice, as it is scanned. -/
def busyFile : ScannedFile :=
  ⟨⟨"/a.ts"⟩, .typeScript, [⟨⟨"/a.ts"⟩, "./lib", ⟨8, 13⟩, ⟨0, 15⟩, .imports, [], 1⟩,
    ⟨⟨"/a.ts"⟩, "./lib/m", ⟨24, 31⟩, ⟨16, 33⟩, .imports, [], 2⟩], [], []⟩

/-- On the later disk, the file with two edits is edited, as both put segments in between others.
    The file that travels is left as it is: its specifier is taken away as a whole, and has become
    another one. -/
theorem busy_edits_fit_later :
    plan busyDisk smallProject ⟨"lib"⟩ ⟨"q/lib"⟩ = .ok busyPreparation.plan ∧
      (∃ o ∈ (applyEdits laterDisk busyPreparation.plan.edits).1,
        o.path = ⟨"/a.ts"⟩ ∧ o.status = .succeeded ∧
        ∃ s, laterDisk.readText o.path = .ok s ∧
          (⟨⟨"/a.ts"⟩, 26, .insert "q/"⟩ : Edit).FitsIn s.toList) ∧
      ∃ o ∈ (applyEdits laterDisk busyPreparation.plan.edits).1,
        o.path = ⟨"/lib/m.ts"⟩ ∧ o.status ≠ .succeeded ∧
        (applyEdits laterDisk busyPreparation.plan.edits).2.readText o.path
          = .ok "import '../b';\n" := by
  have hplan := Preparation.plan_of_make prepared_busyDisk
  have hsound := Preparation.sound_of_make wellFormed_busyDisk prepared_busyDisk
  obtain ⟨x, hx, -, hfate, hall⟩ := later_edits_fit wellFormed_busyDisk wellFormed_laterDisk hplan
  obtain rfl := Except.ok.inj (prepared_busyDisk.symm.trans hx)
  -- a file that is edited has an outcome under the path of its edits
  have houtcome : ∀ p ∈ busyEdits.map (·.target),
      ∃ o ∈ (applyEdits laterDisk busyPreparation.plan.edits).1, o.path = p := by
    intro p hp
    obtain ⟨b, hb, rfl⟩ := List.mem_map.1 hp
    obtain ⟨o, ho, hsame⟩ := hsound.exists_outcome wellFormed_laterDisk
      (by rw [edits_busyPreparation]; exact hb)
    obtain ⟨es, hg, -⟩ := hsound.exists_group wellFormed_laterDisk ho
    have hspelled : ∀ b ∈ busyEdits, ∀ g ∈ editsByFile busyEdits,
        g.1.same b.target = true → g.1 = b.target := by decide +kernel
    rw [edits_busyPreparation] at hg
    exact ⟨o, ho, hspelled b hb _ hg hsame⟩
  refine ⟨hplan, ?_, ?_⟩
  · obtain ⟨o, ho, hpath⟩ := houtcome ⟨"/a.ts"⟩ (by decide +kernel)
    have hok : o.status = .succeeded := by
      rw [(hfate o ho).1, hpath, edits_busyPreparation]
      refine ⟨_, rfl, by decide +kernel, ?_⟩
      simp only [← Edit.applyChars?_isSome_iff]
      decide +kernel
    have hscanned : busyFile ∈ busyPreparation.index.scanned := by decide +kernel
    obtain ⟨r, hr, hedit⟩ : ∃ r ∈ busyPreparation.rewrittenReferences busyFile,
        busyPreparation.referenceEdit? busyFile r = some ⟨⟨"/a.ts"⟩, 26, .insert "q/"⟩ := by
      decide +kernel
    obtain ⟨-, -, -, -, hfits⟩ := hall busyFile hscanned r hr _ hedit
    exact ⟨o, ho, hpath, hok, hfits o ho (by rw [hpath]; exact same_refl _) hok⟩
  · obtain ⟨o, ho, hpath⟩ := houtcome ⟨"/lib/m.ts"⟩ (by decide +kernel)
    have hno : o.status ≠ .succeeded := by
      rw [Ne, (hfate o ho).1, hpath, edits_busyPreparation]
      rintro ⟨s, hs, -, hfits⟩
      obtain rfl := Except.ok.inj hs
      have hstale := hfits ⟨⟨"/lib/m.ts"⟩, 8, .replace "../a" "../../a"⟩ (by decide +kernel)
      rw [← Edit.applyChars?_isSome_iff] at hstale
      revert hstale
      decide +kernel
    refine ⟨o, ho, hpath, hno, ((hfate o ho).2 hno).trans ?_⟩
    rw [hpath]
    rfl

/-- The small disk, with another specifier in its source file. -/
def changedDisk : Disk where
  top := .directory [("a.ts", .file (.text "import './foo';\n")), ("lib", .directory []),
    ("q", .directory [])]
  here := []

theorem rewritten_smallFile :
    smallReference ∈ smallPreparation.rewrittenReferences smallFile ∧
      smallPreparation.referenceEdit? smallFile smallReference
        = some ⟨⟨"/a.ts"⟩, 10, .insert "q/"⟩ := by
  decide +kernel

/-- **A file is edited although its specifier has become another one**: the edit puts a segment into
    the middle of a specifier and looks at nothing around it. -/
theorem edited_with_other_specifier :
    plan smallDisk smallProject ⟨"lib"⟩ ⟨"q/lib"⟩ = .ok smallPreparation.plan ∧
      smallFile ∈ smallPreparation.index.scanned ∧
      smallReference ∈ smallPreparation.rewrittenReferences smallFile ∧
      smallPreparation.referenceEdit? smallFile smallReference
        = some ⟨smallFile.path, 10, .insert "q/"⟩ ∧
      smallReference.specifier = "./lib" ∧
      (applyEdits changedDisk smallPreparation.plan.edits).1
        = [⟨smallFile.path, .succeeded, ["/a.ts@10: insert \"q/\""], 1⟩] ∧
      ∃ s, changedDisk.readText smallFile.path = .ok s ∧
        betweenBytes? s.toList smallReference.span.start smallReference.span.stop
          = some "./foo".toList := by
  refine ⟨Preparation.plan_of_make prepared_smallDisk, ?_, rewritten_smallFile.1,
    rewritten_smallFile.2, rfl, ?_, "import './foo';\n", rfl, ?_⟩
  · rw [scanned_smallPreparation]
    exact .head _
  · decide +kernel
  · decide +kernel

end ModuleMove
