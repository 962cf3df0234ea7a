import ModuleMove.Proofs.Plan.Stale

/-!
# REREAD FILES — where all references of a project lead once its files have been edited

A plan looks at the references that name the unit, and at those of the files that travel.  The
others are read anew as well: they say what they said, from where they stood.  If all files have
been edited, every relative reference that is still there leads to the place that its target has
been taken to, as far as paths show it.

Main statements:
  * `Sound.compatible_of_outcomes` — edits that have all been made were not in conflict.
  * `Sound.exists_reread` — the text in the place of each reference, and where it leads.
-/

namespace ModuleMove

open ModuleMove.Path

namespace Preparation

section

variable {x : Preparation} {f : ScannedFile} {s : String} {r : Reference}

/-! ## §1. Files that have been edited. -/

theorem isInsert_of_mem_ownEdits {e : Edit} (h : e ∈ x.ownEdits) : e.isInsert = false := by
  obtain ⟨t, -, he⟩ := List.mem_flatMap.1 h
  obtain ⟨f, moved, -, -, r, -, he⟩ := mem_ownEditsOf he
  obtain ⟨wanted, -, -, rfl⟩ := mem_ownEdit? he
  rfl

/-- **If all files have been edited**, a file that travels has not been edited as a barrel at the
    same place. -/
theorem Sound.compatible_of_outcomes (hx : x.Sound)
    (h : ∀ o ∈ (applyEdits x.disk x.plan.edits).1, o.status = .succeeded) : x.Compatible := by
  intro e he b hb hsame
  have hplan : x.plan.edits = x.keptDependentEdits ++ x.ownEdits ++ x.barrelEdits.edits := rfl
  have hmem : e ∈ x.plan.edits := List.mem_append_left _ (List.mem_append_right _ he)
  obtain ⟨o, ho, hpath⟩ := hx.exists_outcome hx.disk hmem
  obtain ⟨t, -, hpairwise, -⟩ := (hx.later_outcome hx.disk ho).1.1 (h o ho)
  rw [hplan, List.filter_append, List.pairwise_append] at hpairwise
  -- edits of travelling files stand before those of barrels, and a file has been edited with both
  have hconflicts : e.conflicts b = false := by
    refine hpairwise.2.2 e (List.mem_filter.2 ⟨List.mem_append_right _ he, ?_⟩) b
      (List.mem_filter.2 ⟨hb, ?_⟩)
    · exact Path.same_symm hpath
    · exact Path.same_trans (Path.same_symm hsame) (Path.same_symm hpath)
  exact Edit.beside_of_not_conflicts (hx.bounded hmem)
    (hx.bounded (List.mem_append_right _ hb)) (isInsert_of_mem_ownEdits he) hconflicts

/-- What a barrel loses is not beside what is lost with it. -/
theorem not_beside_of_contains {b e : Edit} (he : e.Substantial) (hno : e.isInsert = false)
    (hcontains : b.extent.contains e.extent = true) : ¬ e.Beside b := by
  intro hbeside
  unfold Span.contains at hcontains
  rw [Bool.and_eq_true, decide_eq_true_eq, decide_eq_true_eq] at hcontains
  -- what takes something away has a size, so that it is not beside what contains it
  have hpos := Edit.offset_lt_stop he hno
  have hstart : b.offset ≤ e.offset := hcontains.1
  rcases hbeside.1 with hle | hle
  · omega
  · have := hcontains.2
    omega

/-! ## §2. The references that are kept. -/

/-- The relative references of a file that no barrel loses. -/
def keptReferences (x : Preparation) (f : ScannedFile) : List Reference :=
  f.relativeReferences.filter fun r => !x.onRemoved f.path r

/-- The edit of such a reference: in a file that stays, only one that names the unit has an edit. -/
def keptEdit? (x : Preparation) (f : ScannedFile) (r : Reference) : Option Edit :=
  if x.unit.travels f.path || x.unit.matchesSpecifier r.specifier then x.referenceEdit? f r
  else none

theorem mem_keptReferences : r ∈ x.keptReferences f ↔
    (r ∈ f.references ∧ r.isRelative = true) ∧ x.onRemoved f.path r = false := by
  unfold keptReferences ScannedFile.relativeReferences
  rw [List.mem_filter, List.mem_filter, Bool.not_eq_true']

theorem picks_kept : x.Picks f (x.keptReferences f) (x.keptEdit? f) := by
  refine ⟨List.filter_sublist.trans List.filter_sublist,
    fun r hr => (mem_keptReferences.1 hr).1.2, fun r hr => (mem_keptReferences.1 hr).2, ?_⟩
  intro r hr e he
  unfold keptEdit? at he
  split at he
  · exact he
  · cases he

/-- An edit of a file that travels is made in a reference that is kept. -/
theorem Sound.kept_of_travels (hx : x.Sound) (hc : x.Compatible) (hs : x.Shows f s) {e : Edit}
    (ht : x.unit.travels f.path = true) (hr : r ∈ f.relativeReferences)
    (he : x.referenceEdit? f r = some e) : x.onRemoved f.path r = false := by
  obtain ⟨hrf, hrelative⟩ := List.mem_filter.1 hr
  obtain ⟨hown, hsame⟩ := (hx.mem_ownEdits_iff hs).2 ⟨ht, r, hr, he⟩
  have hno := isInsert_of_mem_ownEdits hown
  have hholds := hs.holds_specifierSite hrf hrelative fun _ h => h
  obtain ⟨hsub, -⟩ := hholds e he
  have hwithin : e.Within r := by
    obtain ⟨h1, h2⟩ := hholds.within (x := specifierSite r (x.referenceEdit? f r)) he
    exact ⟨h1, by rw [(hs.standsIn hrf).stop_eq]; exact h2⟩
  have htarget : e.target = f.path := by
    unfold referenceEdit? at he
    obtain ⟨moved, hmoved⟩ := Option.isSome_iff_exists.1 ht
    rw [hmoved] at he
    obtain ⟨-, -, -, rfl⟩ := mem_ownEdit? he
    rfl
  -- a barrel that loses the reference would not have its edit beside this one
  rw [← hx.any_swallows hs hrf htarget hwithin, List.any_eq_false]
  intro b hb hswallows
  obtain ⟨-, hsame', hcontains⟩ :=
    (swallows_iff (hx.bounded_barrel hb) (hs.bounded hrf hwithin)).1 hswallows
  exact not_beside_of_contains hsub hno hcontains (hc e hown b hb (Path.same_symm hsame'))

/-- **The edits of a file are those of the references that are kept, and those of barrels.** -/
theorem Sound.mem_edits_iff_kept (hx : x.Sound) (hc : x.Compatible) (hs : x.Shows f s) {e : Edit} :
    e ∈ x.plan.edits.filter (fun e => e.target.same f.path) ↔
      ∃ y ∈ x.pickedSites f (x.keptReferences f) (x.keptEdit? f), y.edit? = some e := by
  have hreference : (∃ r ∈ x.rewrittenReferences f, x.referenceEdit? f r = some e) ↔
      ∃ r ∈ x.keptReferences f, x.keptEdit? f r = some e := by
    unfold rewrittenReferences keptEdit?
    cases ht : x.unit.travels f.path with
    | true =>
      -- in a file that travels, no edit is made in a reference that a barrel loses
      simp only [if_true, Bool.true_or]
      refine exists_congr fun r => and_congr_left fun he => ?_
      rw [mem_keptReferences]
      refine ⟨fun hr => ⟨List.mem_filter.1 hr, hx.kept_of_travels hc hs ht hr he⟩, fun hr => ?_⟩
      exact List.mem_filter.2 hr.1
    | false =>
      -- in a file that stays, the index holds the references that name the unit
      simp only [Bool.false_eq_true, if_false, Bool.false_or, List.mem_filter, Index.mem_naming,
        mem_keptReferences, Option.ite_none_right_eq_some, Bool.not_eq_true']
      refine exists_congr fun r => ?_
      constructor
      · rintro ⟨⟨⟨h1, h2, h3⟩, h4⟩, he⟩
        exact ⟨⟨⟨h1, h2⟩, h4⟩, h3, he⟩
      · rintro ⟨⟨⟨h1, h2⟩, h4⟩, h3, he⟩
        exact ⟨⟨⟨h1, h2, h3⟩, h4⟩, he⟩
  rw [hx.mem_edits_iff hs]
  unfold sitesOf pickedSites
  simp only [List.mem_append, or_and_right, exists_or, List.mem_map, exists_exists_and_eq_and]
  exact or_congr hreference Iff.rfl

/-! ## §3. Where they lead. -/

/-- The directory that the references of a file are read from once it has been taken along. -/
def directoryAfter (x : Preparation) (f : ScannedFile) : Path :=
  x.project.directoryOf (x.unit.led f.path)

/-- The place that a path leads to once the unit has been moved, as far as paths show it. -/
def led (x : Preparation) (t : Path) : Path := x.unit.led t

/-- **A reference that is kept leads to where its target is taken**, if a file that stays names the
    unit in each specifier that leads to it. -/
theorem Sound.read_reference (hx : x.Sound) {rs : List String}
    (hroot : top.GoesOn x.project.root rs) (hrel : x.Relocates) (hs : x.Shows f s)
    (hr : r ∈ f.references) (hrelative : r.isRelative = true)
    (hnames : x.unit.travels f.path = false →
      x.unit.travels (targetOf x.project (x.project.directoryOf f.path) r) = true →
        x.unit.matchesSpecifier r.specifier = true ∧ ¬ Specifier.Doubled r.specifier) :
    (Specifier.resolve (specifierSite r (x.keptEdit? f r)).new (x.directoryAfter f)
      x.project.root).same (x.led (targetOf x.project (x.project.directoryOf f.path) r))
        = true := by
  unfold directoryAfter keptEdit? led MovedUnit.led
  cases ht : x.unit.travels f.path with
  | true =>
    obtain ⟨moved, hmoved⟩ := Option.isSome_iff_exists.1 ht
    have hread := hx.read_own hroot hrel hs hrelative hmoved
    rw [Bool.true_or, if_pos rfl]
    unfold referenceEdit?
    rw [hmoved]
    exact hread
  | false =>
    have hnone : x.unit.relocate f.path = none := by
      unfold MovedUnit.travels at ht
      rwa [Option.isSome_eq_false_iff, Option.isNone_iff_eq_none] at ht
    rw [hnone, Bool.false_or]
    show (Specifier.resolve _ (x.project.directoryOf f.path) _).same _ = true
    cases hm : x.unit.relocate (targetOf x.project (x.project.directoryOf f.path) r) with
    | some moved =>
      have htravels : x.unit.travels (targetOf x.project (x.project.directoryOf f.path) r)
          = true := by
        unfold MovedUnit.travels
        rw [hm]
        rfl
      obtain ⟨hmatches, hdoubled⟩ := hnames ht htravels
      have hread := hx.read_dependent hroot hrel hs hr hrelative hdoubled
      rw [hm] at hread
      rw [hmatches, if_pos rfl, referenceEdit?_of_stays ht]
      exact hread
    | none =>
      -- the specifier is left as it is, whether it names the unit or not
      have hnew : (specifierSite r (if x.unit.matchesSpecifier r.specifier = true then
          x.referenceEdit? f r else none)).new = r.specifier := by
        refine Site.new_of_none (x := specifierSite r _) ?_
        show (if x.unit.matchesSpecifier r.specifier = true then x.referenceEdit? f r else none)
          = none
        rw [referenceEdit?_of_stays ht]
        unfold Preparation.dependentEdit?
        rw [hm]
        exact ite_self _
      rw [hnew]
      exact Path.same_refl _

/-- **Once all files have been edited**, each scanned file holds its old text but for patches, and
    in the place of each reference that is kept there is one that leads to where its target is
    taken. -/
theorem Sound.exists_reread (hx : x.Sound) {rs : List String}
    (hroot : top.GoesOn x.project.root rs) (hrel : x.Relocates)
    (hok : ∀ o ∈ (applyEdits x.disk x.plan.edits).1, o.status = .succeeded)
    (hf : f ∈ x.index.scanned) : ∃ s s' ps, x.disk.readText f.path = .ok s ∧
      (applyEdits x.disk x.plan.edits).2.readText f.path = .ok s' ∧
      Patched ps 0 s.toList s'.toList ∧
      ∀ r ∈ f.relativeReferences, x.onRemoved f.path r = false → ∃ t, ⟨r.span, t⟩ ∈ ps ∧
        ((x.unit.travels f.path = false →
          x.unit.travels (targetOf x.project (x.project.directoryOf f.path) r) = true →
            x.unit.matchesSpecifier r.specifier = true ∧ ¬ Specifier.Doubled r.specifier) →
          (Specifier.resolve t (x.directoryAfter f) x.project.root).same
            (x.led (targetOf x.project (x.project.directoryOf f.path) r)) = true) := by
  obtain ⟨s, hs⟩ := hx.shows hf
  have hc := hx.compatible_of_outcomes hok
  obtain ⟨ps, hps, hpatched⟩ := picks_kept.exists_patches hx hc hs
    fun e => hx.mem_edits_iff_kept hc hs
  refine ⟨s, x.newText f s, ps, hs.text, hx.readText_of_compatible hc hs, hpatched, ?_⟩
  intro r hr hkept
  obtain ⟨hrf, hrelative⟩ := List.mem_filter.1 hr
  refine ⟨(specifierSite r (x.keptEdit? f r)).new, (hps _).2 ⟨specifierSite r (x.keptEdit? f r),
    List.mem_append_left _ (List.mem_map_of_mem (mem_keptReferences.2 ⟨⟨hrf, hrelative⟩, hkept⟩)),
    patch_specifierSite (hs.standsIn hrf) _⟩, fun hnames => ?_⟩
  exact hx.read_reference hroot hrel hs hrf hrelative hnames

end

end Preparation

end ModuleMove
