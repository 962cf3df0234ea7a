import ModuleMove.Proofs.Edit.Patch
import ModuleMove.Proofs.Plan.CarryOut

/-!
# REWRITTEN FILES — what the files of a project say after a plan

In a file that stays, a specifier that leads to something that is carried along is rewritten so that
it leads to where it is carried.  In a file that travels, each relative specifier is rewritten so
that it leads to the same thing from the new directory.  Barrels lose and get lines; nothing else is
touched.

Main statements:
  * `plan_rewrites` — what the specifiers of a file lead to after the plan, and that all else is
    kept.
-/

namespace ModuleMove

open ModuleMove.Path
open Preparation (lineEnd)

namespace Preparation

section

variable {x : Preparation} {f : ScannedFile} {s : String} {r : Reference}

/-! ## §1. Where specifiers lead. -/

/-- What is taken along lies in the project and is taken to a place in the project. -/
def Relocates (x : Preparation) : Prop :=
  ∀ t m ts, top.GoesOn t ts → x.unit.relocate t = some m →
    (∃ ns, x.project.root.GoesOn t ns ∧ ns ≠ []) ∧ ∃ ms, x.project.root.GoesOn m ms ∧ ms ≠ []

theorem relocates_of_make {d : Disk} {p : Project} {old new : Path} {rs : List String}
    (hd : d.WellFormed) (hroot : top.GoesOn p.root rs) (h : make d p old new = .ok x)
    (h1 : x.unit.newName ≠ ".") (h2 : x.unit.newName ≠ "..") : x.Relocates := by
  obtain ⟨old', new', δ, hc, hu, -, rfl, rfl, -⟩ := make_eq_ok h
  obtain ⟨-, -, -, hδ, -⟩ := check_eq_ok hc
  rw [hu] at h1 h2
  have hn := isName_newName hd hroot hc h1 h2
  intro t m ts ht hm
  rw [hu] at hm
  refine MovedUnit.goesOn_relocate hroot hδ (fun hs => ?_) hn ht hm
  obtain ⟨stem, ext, hname, -⟩ := exists_extension hc hs
  exact ⟨_, hname⟩

/-- The directory of a file in an absolute project is named from the root of the tree. -/
theorem goesOn_directoryOf {p : Project} {q : Path} {rs ns : List String}
    (hroot : top.GoesOn p.root rs) (h : p.root.GoesOn q ns) (hne : ns ≠ []) :
    ∃ ds, top.GoesOn (p.directoryOf q) ds := by
  obtain ⟨ns, n, rfl⟩ := (List.eq_nil_or_concat' ns).resolve_left hne
  have hcs : q.components = (p.root.components ++ ns.map Component.name) ++ [.name n] := by
    rw [h.2, List.map_append, List.map_singleton, List.append_assoc]
  obtain ⟨dir, hdir, hc⟩ := parent?_eq_some hcs (by simp)
  have heq : p.directoryOf q = dir := by
    unfold Project.directoryOf
    rw [hdir]
    rfl
  rw [heq]
  exact ⟨rs ++ ns, hroot.trans ⟨fun s hs => h.1 s (List.mem_append_left _ hs), hc⟩⟩

/-- A specifier that is written for a place in the project is proper. -/
theorem proper_respecify (former : String) {dir target root : Path} {ds rs ms : List String}
    (hd : top.GoesOn dir ds) (hr : top.GoesOn root rs) (ht : root.GoesOn target ms)
    (hne : ms ≠ []) : Specifier.Proper (Specifier.respecify former dir target root) := by
  unfold Specifier.respecify
  rw [Specifier.proper_iff_cutText]
  split
  · rw [Specifier.anchored_of_goesOn ht, Specifier.cutText_names ht.1, if_neg hne]
    refine ⟨fun h => hne (List.cons.inj h).2, fun h => ?_, Specifier.not_doubled_of_names ht.1⟩
    rw [(List.cons.inj h).2] at ht
    exact (ht.1 "" (List.mem_cons_self ..)).1 rfl
  · have hstyle := Specifier.relative_style hd (hr.trans ht)
    obtain ⟨cs, xs, ys, -, -, hcut⟩ := Specifier.cutText_relative hd (hr.trans ht)
    obtain ⟨u, us, hups, hu⟩ := Specifier.exists_ups xs.length
    have hdots : u ≠ "" := by rcases hu with rfl | rfl <;> decide
    rw [hcut, hups, List.cons_append]
    refine ⟨fun h => hdots (List.cons.inj h).1, fun h => hdots (List.cons.inj h).1, fun h => ?_⟩
    rw [h.isAnchored] at hstyle
    cases hstyle

/-- A specifier that leads to a place below the root of the project is proper. -/
theorem proper_of_below {t : String} {dir root : Path} {ds rs ks : List String}
    (hd : top.GoesOn dir ds) (hr : top.GoesOn root rs) (ht : t ≠ "")
    (hdoubled : ¬ Specifier.Doubled t) (hks : root.GoesOn (Specifier.resolve t dir root) ks)
    (hne : ks ≠ []) : Specifier.Proper t := by
  refine ⟨ht, fun h0 => ?_, hdoubled⟩
  -- a slash leads to the root itself
  have htop : (Specifier.resolve t dir root).components = root.components := by
    rw [h0] at hdoubled ⊢
    rw [Specifier.components_resolve hd.text_ne_empty hr.text_ne_empty hdoubled]
    show normalComponents (root.components ++ []) = _
    rw [List.append_nil, normalComponents_of_normal hr.normal]
  have hlen := congrArg List.length hks.2
  rw [htop, List.length_append, List.length_map] at hlen
  exact hne (List.length_eq_zero_iff.1 (by omega))

/-- A place of a specifier in its file. -/
def specifierSite (r : Reference) (e : Option Edit) : Site := ⟨r.span.start, r.specifier, e⟩

/-- What a specifier edit makes leads where the wanted specifier leads. -/
theorem reworked_of_specifierEdit? {q : Path} {wanted : String} (hw : wanted ≠ "")
    (hstop : r.span.stop = r.span.start + byteLength r.specifier.toList) :
    (specifierSite r (specifierEdit? q r wanted)).new = wanted ∨
      Reworked (cutText '/' r.specifier) (cutText '/' wanted)
        (cutText '/' (specifierSite r (specifierEdit? q r wanted)).new) := by
  cases he : specifierEdit? q r wanted with
  | none =>
    have hnew : (specifierSite r none).new = r.specifier := Site.new_of_none rfl
    rw [hnew]
    exact specifierEdit?_eq_none he
  | some e =>
    obtain ⟨-, hsub, a, b, hold, ho, hmade⟩ := specifierEdit?_eq_some he hw hstop
    have hnew : (specifierSite r (some e)).new = a ++ e.written ++ b :=
      Site.new_of_some rfl hsub hold ho
    rw [hnew]
    exact .inr hmade

/-- **What becomes of a specifier in a file that stays**: it leads to where its target is taken, or
    is left as it is. -/
theorem Sound.read_dependent (hx : x.Sound) {rs : List String}
    (hroot : top.GoesOn x.project.root rs) (hrel : x.Relocates) (hs : x.Shows f s)
    (hr : r ∈ f.references) (hrelative : r.isRelative = true)
    (hdoubled : ¬ Specifier.Doubled r.specifier) :
    match x.unit.relocate (targetOf x.project (x.project.directoryOf f.path) r) with
    | some moved =>
      (Specifier.resolve (specifierSite r (x.dependentEdit? f.path r)).new
        (x.project.directoryOf f.path) x.project.root).same moved = true
    | none => (specifierSite r (x.dependentEdit? f.path r)).new = r.specifier := by
  unfold Preparation.dependentEdit?
  cases hm : x.unit.relocate (targetOf x.project (x.project.directoryOf f.path) r) with
  | none => exact Site.new_of_none rfl
  | some moved =>
    obtain ⟨ns, hns, hne⟩ := hx.index.goesOn f hs.mem
    obtain ⟨ds, hdir⟩ := goesOn_directoryOf hroot hns hne
    obtain ⟨ts, hts⟩ := Specifier.goesOn_resolve r.specifier hdir hroot
    obtain ⟨⟨ks, hks, hkne⟩, ms, hms, hmne⟩ := hrel _ moved ts hts hm
    have hwanted := Specifier.resolve_respecify r.specifier hdir hroot (hroot.trans hms)
    have hproper := proper_respecify r.specifier hdir hroot hms hmne
    show (Specifier.resolve (specifierSite r (specifierEdit? f.path r (Specifier.respecify
      r.specifier (x.project.directoryOf f.path) moved x.project.root))).new _ _).same moved = true
    rcases reworked_of_specifierEdit? hproper.1 (hs.standsIn hr).stop_eq with heq | hmade
    · rw [heq]
      exact hwanted
    · -- the root of the project is not taken along, so the old specifier is proper too
      have hold : Specifier.Proper r.specifier := proper_of_below hdir hroot
        (Reference.ne_empty_of_isRelative hrelative) hdoubled hks hkne
      obtain ⟨h1, h2, h3⟩ := Specifier.read_of_reworked hmade hold hproper
        (Specifier.isAnchored_respecify _ hdir (hroot.trans hms))
      exact Path.same_trans (Specifier.resolve_congr hdir.text_ne_empty hroot.text_ne_empty h2
        hproper.2.2 h1 h3) hwanted

/-- **What becomes of a specifier in a file that travels**: from the new directory, it leads to
    where its target is, or is taken. -/
theorem Sound.read_own (hx : x.Sound) {rs : List String} (hroot : top.GoesOn x.project.root rs)
    (hrel : x.Relocates) (hs : x.Shows f s) (hrelative : r.isRelative = true) {moved : Path}
    (hmoved : x.unit.relocate f.path = some moved) :
    (Specifier.resolve (specifierSite r (x.ownEdit? f.path (x.project.directoryOf f.path)
        (x.project.directoryOf moved) r)).new (x.project.directoryOf moved) x.project.root).same
      ((x.unit.relocate (targetOf x.project (x.project.directoryOf f.path) r)).getD
        (targetOf x.project (x.project.directoryOf f.path) r)) = true := by
  obtain ⟨ns, hns, hne⟩ := hx.index.goesOn f hs.mem
  obtain ⟨ds, hdir⟩ := goesOn_directoryOf hroot hns hne
  obtain ⟨-, ms, hms, hmne⟩ := hrel f.path moved _ (hroot.trans hns) hmoved
  obtain ⟨es, hnew⟩ := goesOn_directoryOf hroot hms hmne
  obtain ⟨ts, hts⟩ := Specifier.goesOn_resolve r.specifier hdir hroot
  let target := (x.unit.relocate (targetOf x.project (x.project.directoryOf f.path) r)).getD
    (targetOf x.project (x.project.directoryOf f.path) r)
  obtain ⟨ks, hks⟩ : ∃ ks, top.GoesOn target ks := by
    show ∃ ks, top.GoesOn ((x.unit.relocate _).getD _) ks
    cases hm : x.unit.relocate (targetOf x.project (x.project.directoryOf f.path) r) with
    | none => exact ⟨ts, hts⟩
    | some m =>
      obtain ⟨-, ks, hks, -⟩ := hrel _ m ts hts hm
      exact ⟨_, hroot.trans hks⟩
  -- with an edit or without, the reference says what is wanted
  have hmade : (specifierSite r (x.ownEdit? f.path (x.project.directoryOf f.path)
      (x.project.directoryOf moved) r)).new
      = Specifier.respecify r.specifier (x.project.directoryOf moved) target x.project.root := by
    cases he : x.ownEdit? f.path (x.project.directoryOf f.path) (x.project.directoryOf moved) r with
    | none =>
      have hnew : (specifierSite r none).new = r.specifier := Site.new_of_none rfl
      rw [hnew]
      exact (ownEdit?_eq_none he).symm
    | some e =>
      obtain ⟨wanted, hwanted, -, rfl⟩ := mem_ownEdit? he
      have hsub : Edit.Substantial ⟨f.path, r.span.start, .replace r.specifier wanted⟩ :=
        fun _ => Reference.ne_empty_of_isRelative hrelative
      have hold : r.specifier = "" ++ r.specifier ++ "" := by
        rw [String.empty_append, String.append_empty]
      rw [Site.new_of_some (x := specifierSite r _) rfl hsub hold rfl, ← hwanted]
      show "" ++ wanted ++ "" = wanted
      rw [String.empty_append, String.append_empty]
  rw [hmade]
  exact Specifier.resolve_respecify r.specifier hnew hroot hks

end

/-! ## §2. The references and edits of one file. -/

section

variable {x : Preparation} {f : ScannedFile} {s : String}

/-- A reference lies in what a barrel loses. -/
def onRemoved (x : Preparation) (q : Path) (r : Reference) : Bool :=
  x.barrelEdits.edits.any fun b => !b.isInsert && b.target.same q && b.extent.contains r.span

/-- The references of a file that are looked at: of a file that travels, all that are relative; of
    one that stays, those that name the unit and that no barrel loses. -/
def rewrittenReferences (x : Preparation) (f : ScannedFile) : List Reference :=
  if x.unit.travels f.path then f.relativeReferences
  else (Index.naming x.unit f).filter fun r => !x.onRemoved f.path r

/-- The edit of a reference of a file. -/
def referenceEdit? (x : Preparation) (f : ScannedFile) (r : Reference) : Option Edit :=
  match x.unit.relocate f.path with
  | some moved => x.ownEdit? f.path (x.project.directoryOf f.path) (x.project.directoryOf moved) r
  | none => x.dependentEdit? f.path r

/-- The place of an edit of a barrel. -/
def barrelSite (e : Edit) : Site := ⟨e.offset, e.expected, some e⟩

/-- The places of a file at which a plan makes edits. -/
def sitesOf (x : Preparation) (f : ScannedFile) : List Site :=
  (x.rewrittenReferences f).map (fun r => specifierSite r (x.referenceEdit? f r)) ++
    (x.barrelEdits.edits.filter fun e => e.target.same f.path).map barrelSite

theorem referenceEdit?_of_stays (ht : x.unit.travels f.path = false) {r : Reference} :
    x.referenceEdit? f r = x.dependentEdit? f.path r := by
  unfold MovedUnit.travels at ht
  rw [Option.isSome_eq_false_iff, Option.isNone_iff_eq_none] at ht
  unfold referenceEdit?
  rw [ht]

theorem mem_rewrittenReferences {r : Reference} (hr : r ∈ x.rewrittenReferences f) :
    r ∈ f.references ∧ r.isRelative = true := by
  unfold rewrittenReferences at hr
  split at hr
  · exact List.mem_filter.1 hr
  · obtain ⟨h1, h2, -⟩ := Index.mem_naming.1 (List.mem_filter.1 hr).1
    exact ⟨h1, h2⟩

theorem rewrittenReferences_sublist : (x.rewrittenReferences f).Sublist f.references := by
  unfold rewrittenReferences
  split
  · exact List.filter_sublist
  · exact List.filter_sublist.trans (List.filter_sublist.trans List.filter_sublist)

/-- An edit of a reference fits its specifier. -/
theorem Shows.holds_specifierSite (hs : x.Shows f s) {r : Reference} (hr : r ∈ f.references)
    (hrelative : r.isRelative = true) {edit? : Option Edit}
    (hedit : ∀ e, edit? = some e → x.referenceEdit? f r = some e) :
    (specifierSite r edit?).Holds := by
  intro e he
  have he := hedit e he
  unfold referenceEdit? at he
  split at he
  · obtain ⟨wanted, -, -, rfl⟩ := mem_ownEdit? he
    refine ⟨fun _ => Reference.ne_empty_of_isRelative hrelative, "", "", ?_, rfl⟩
    show r.specifier = "" ++ r.specifier ++ ""
    rw [String.empty_append, String.append_empty]
  · unfold Preparation.dependentEdit? at he
    obtain ⟨moved, -, he⟩ := Option.bind_eq_some_iff.1 he
    obtain ⟨-, hsub, a, b, hold, ho, -⟩ :=
      specifierEdit?_eq_some he (respecify_ne_empty _ _ _ _) (hs.standsIn hr).stop_eq
    exact ⟨hsub, a, b, hold, ho⟩

end

/-! ## §3. Sites are clear of each other. -/

section

variable {x : Preparation} {f : ScannedFile} {s : String} {rs : List Reference}
  {edit? : Reference → Option Edit}

/-- Relative references of a file that no barrel loses, and what is done in them: their edits or
    nothing. -/
structure Picks (x : Preparation) (f : ScannedFile) (rs : List Reference)
    (edit? : Reference → Option Edit) : Prop where
  /-- They are references of the file. -/
  sublist : rs.Sublist f.references
  /-- They are relative. -/
  relative : ∀ r ∈ rs, r.isRelative = true
  /-- No barrel loses one. -/
  kept : ∀ r ∈ rs, x.onRemoved f.path r = false
  /-- An edit that is made in one is its own. -/
  edits : ∀ r ∈ rs, ∀ e, edit? r = some e → x.referenceEdit? f r = some e

/-- The places of such references, and those of the edits of barrels. -/
def pickedSites (x : Preparation) (f : ScannedFile) (rs : List Reference)
    (edit? : Reference → Option Edit) : List Site :=
  rs.map (fun r => specifierSite r (edit? r)) ++
    (x.barrelEdits.edits.filter fun e => e.target.same f.path).map barrelSite

/-- Sites that do not reach into one another are clear if their edits are beside each other. -/
theorem clear_of_beside {y z : Site} (hspan : y.span.stop ≤ z.start ∨ z.span.stop ≤ y.start)
    (hy : y.Holds) (hbeside : ∀ e g, y.edit? = some e → z.edit? = some g → e.Beside g) :
    y.Clear z :=
  ⟨hspan, fun e he hz => (hbeside e e he hz).ne (hy e he).1 rfl⟩

/-- An edit that takes all of a specifier. -/
def wholeEdit (r : Reference) : Edit := ⟨r.owner, r.span.start, .remove r.specifier⟩

theorem extent_wholeEdit {r : Reference} {cs : List Char} (hr : r.StandsIn cs) :
    (wholeEdit r).extent = r.span := by
  show (⟨r.span.start, r.span.start + byteLength r.specifier.toList⟩ : Span) = r.span
  rw [← hr.stop_eq]

theorem within_wholeEdit {r : Reference} {cs : List Char} (hr : r.StandsIn cs) :
    (wholeEdit r).Within r := by
  refine ⟨Nat.le_refl _, ?_⟩
  rw [extent_wholeEdit hr]

theorem Picks.holds_specifierSite (hp : x.Picks f rs edit?) (hs : x.Shows f s) {r : Reference}
    (hr : r ∈ rs) : (specifierSite r (edit? r)).Holds :=
  hs.holds_specifierSite (hp.sublist.subset hr) (hp.relative r hr) (hp.edits r hr)

/-- The edit of a specifier lies in the reference. -/
theorem Picks.within_specifierSite (hp : x.Picks f rs edit?) (hs : x.Shows f s) {r : Reference}
    (hr : r ∈ rs) {e : Edit} (he : edit? r = some e) : e.Within r := by
  obtain ⟨h1, h2⟩ := (hp.holds_specifierSite hs hr).within he
  have hstop := (hs.standsIn (hp.sublist.subset hr)).stop_eq
  refine ⟨h1, ?_⟩
  rw [hstop]
  exact h2

/-- Each site stands in the text. -/
theorem Picks.standsIn (hp : x.Picks f rs edit?) (hx : x.Sound) (hs : x.Shows f s) {y : Site}
    (hy : y ∈ x.pickedSites f rs edit?) : y.StandsIn 0 s.toList := by
  rcases List.mem_append.1 hy with hy | hy
  · obtain ⟨r, hr, rfl⟩ := List.mem_map.1 hy
    obtain ⟨a, b, hcs, ha⟩ := (hs.standsIn (hp.sublist.subset hr)).around
    refine ⟨a, b, hcs, ?_⟩
    show r.span.start = _
    omega
  · obtain ⟨e, he, rfl⟩ := List.mem_map.1 hy
    obtain ⟨he, hsame⟩ := List.mem_filter.1 he
    obtain ⟨g, t, hg⟩ := hx.placed (List.mem_append_right _ he)
    obtain ⟨rfl, rfl⟩ := hx.eq_of_shows hs hg (Path.same_symm hsame)
    obtain ⟨a, b, hcs, ha⟩ := hg.fits
    refine ⟨a, b, hcs, ?_⟩
    show e.offset = _
    omega

/-- The edit of each site is made in it. -/
theorem Picks.holds (hp : x.Picks f rs edit?) (hx : x.Sound) (hs : x.Shows f s) {y : Site}
    (hy : y ∈ x.pickedSites f rs edit?) : y.Holds := by
  rcases List.mem_append.1 hy with hy | hy
  · obtain ⟨r, hr, rfl⟩ := List.mem_map.1 hy
    exact hp.holds_specifierSite hs hr
  · obtain ⟨e, he, rfl⟩ := List.mem_map.1 hy
    obtain ⟨g, t, hg⟩ := hx.placed (List.mem_append_right _ (List.mem_filter.1 he).1)
    rintro _ ⟨⟩
    refine ⟨hg.substantial, "", "", ?_, rfl⟩
    show e.expected = "" ++ e.expected ++ ""
    rw [String.empty_append, String.append_empty]

/-- The specifiers of two references are clear of each other. -/
theorem Picks.clear_specifierSites (hp : x.Picks f rs edit?) (hs : x.Shows f s)
    {r q : Reference} (hr : r ∈ rs) (hq : q ∈ rs) (ha : r.Apart q) :
    (specifierSite r (edit? r)).Clear (specifierSite q (edit? q)) := by
  have hr' := hs.standsIn (hp.sublist.subset hr)
  have hq' := hs.standsIn (hp.sublist.subset hq)
  refine clear_of_beside ?_ (hp.holds_specifierSite hs hr) fun e g he hg =>
    beside_of_apart hr' hq' ha (.inl (hp.within_specifierSite hs hr he))
      (.inl (hp.within_specifierSite hs hq hg))
  exact (beside_of_apart hr' hq' ha (.inl (within_wholeEdit hr')) (.inl (within_wholeEdit hq'))).1

/-- A specifier that a barrel does not lose is clear of what is done in the barrel. -/
theorem Picks.clear_barrelSite (hp : x.Picks f rs edit?) (hx : x.Sound) (hs : x.Shows f s)
    {r : Reference} (hr : r ∈ rs) {b : Edit} (hb : b ∈ x.barrelEdits.edits)
    (hsame : f.path.same b.target = true) :
    (specifierSite r (edit? r)).Clear (barrelSite b) := by
  have hrf := hp.sublist.subset hr
  have hr' := hs.standsIn hrf
  rcases hx.away_barrel_or_contains hs hrf hb hsame with h | h
  · refine clear_of_beside (h _ (within_wholeEdit hr')).beside.1 (hp.holds_specifierSite hs hr) ?_
    rintro e _ he ⟨⟩
    exact (h e (hp.within_specifierSite hs hr he)).beside
  · exfalso
    obtain ⟨⟨l, hl⟩, hcontains⟩ := h
    have hin := hcontains _ (within_wholeEdit hr')
    rw [extent_wholeEdit hr'] at hin
    have hno : b.isInsert = false := by
      unfold Edit.isInsert
      rw [hl]
    have : x.onRemoved f.path r = true := by
      unfold onRemoved
      refine List.any_eq_true.2 ⟨b, hb, ?_⟩
      rw [hno, Path.same_symm hsame, hin]
      rfl
    rw [hp.kept r hr] at this
    cases this

/-- **The sites of a file are clear of each other.** -/
theorem Picks.pairwise_clear (hp : x.Picks f rs edit?) (hx : x.Sound) (hs : x.Shows f s) :
    (x.pickedSites f rs edit?).Pairwise Site.Clear := by
  refine List.pairwise_append.2 ⟨?_, ?_, ?_⟩
  · rw [List.pairwise_map]
    exact ((pairwise_apart_of_scan hs.scan).sublist hp.sublist).imp_of_mem
      fun hr hq ha => hp.clear_specifierSites hs hr hq ha
  · rw [List.pairwise_map]
    refine (hx.pairwise_barrelEdits.filter _).imp_of_mem fun {a b} ha hb hab => ?_
    obtain ⟨hae, hat⟩ := List.mem_filter.1 ha
    obtain ⟨-, hbt⟩ := List.mem_filter.1 hb
    have hbeside := hab (Path.same_trans hat (Path.same_symm hbt))
    refine clear_of_beside hbeside.1 ?_ ?_
    · exact hp.holds hx hs
        (List.mem_append_right _ (List.mem_map_of_mem (List.mem_filter.2 ⟨hae, hat⟩)))
    · rintro _ _ ⟨⟩ ⟨⟩
      exact hbeside
  · intro y hy z hz
    obtain ⟨r, hr, rfl⟩ := List.mem_map.1 hy
    obtain ⟨b, hb, rfl⟩ := List.mem_map.1 hz
    obtain ⟨hb, hsame⟩ := List.mem_filter.1 hb
    exact hp.clear_barrelSite hx hs hr hb (Path.same_symm hsame)

/-- The references that a plan looks at are such references, if barrels stay. -/
theorem Sound.picks_rewritten (hx : x.Sound) (hstay : x.BarrelsStay) (hs : x.Shows f s) :
    x.Picks f (x.rewrittenReferences f) (x.referenceEdit? f) := by
  refine ⟨rewrittenReferences_sublist, fun r hr => (mem_rewrittenReferences hr).2, ?_,
    fun _ _ _ he => he⟩
  intro r hr
  unfold rewrittenReferences at hr
  split at hr
  · -- a file that travels is no barrel
    rename_i ht
    have hno := hx.index.mem_travelling f hs.mem |>.2 ht
    unfold onRemoved
    rw [List.any_eq_false]
    intro b hb
    have hother := Bool.eq_false_iff.1 (hx.not_same_barrel hstay hb hno)
    have : b.target.same f.path = false := Bool.eq_false_iff.2 fun h => hother (Path.same_symm h)
    simp [this]
  · simpa using (List.mem_filter.1 hr).2

end

/-! ## §4. The edits of a file are those of its sites. -/

section

variable {x : Preparation} {f : ScannedFile} {s : String}

/-- A barrel loses an edit exactly if it loses the specifier that it is made in. -/
theorem Sound.any_swallows (hx : x.Sound) (hs : x.Shows f s) {r : Reference}
    (hr : r ∈ f.references) {e : Edit} (htarget : e.target = f.path) (he : e.Within r) :
    (x.barrelEdits.edits.any fun b => b.swallows e) = x.onRemoved f.path r := by
  have hin := hs.standsIn hr
  rw [Bool.eq_iff_iff]
  unfold onRemoved
  simp only [List.any_eq_true, Bool.and_eq_true, Bool.not_eq_true']
  have hbe := hs.bounded hr he
  -- a removal contains all edits of a reference or none, as it contains its specifier or not
  constructor
  · rintro ⟨b, hb, hswallows⟩
    obtain ⟨⟨l, hl⟩, hsame, hcontains⟩ :=
      (swallows_iff (hx.bounded_barrel hb) hbe).1 hswallows
    rw [htarget] at hsame
    have hno : b.isInsert = false := by
      unfold Edit.isInsert
      rw [hl]
    rcases hx.away_barrel_or_contains hs hr hb (Path.same_symm hsame) with h | ⟨-, h⟩
    · rw [(h e he).not_contains] at hcontains
      cases hcontains
    · have hall := h _ (within_wholeEdit hin)
      rw [extent_wholeEdit hin] at hall
      exact ⟨b, hb, ⟨hno, hsame⟩, hall⟩
  · rintro ⟨b, hb, ⟨-, hsame⟩, hcontains⟩
    rcases hx.away_barrel_or_contains hs hr hb (Path.same_symm hsame) with h | ⟨hl, h⟩
    · have hno := (h _ (within_wholeEdit hin)).not_contains
      rw [extent_wholeEdit hin, hcontains] at hno
      cases hno
    · exact ⟨b, hb, (swallows_iff (hx.bounded_barrel hb) hbe).2
        ⟨hl, by rw [htarget]; exact hsame, h e he⟩⟩

theorem Sound.file?_path (hx : x.Sound) (hf : f ∈ x.index.scanned) :
    x.index.file? f.path = some f := by
  have hsome : (x.index.file? f.path).isSome = true := by
    unfold Index.file?
    rw [List.find?_isSome]
    exact ⟨f, hf, Path.same_refl _⟩
  obtain ⟨g, hg⟩ := Option.isSome_iff_exists.1 hsome
  obtain ⟨hmem, hsame⟩ := file?_eq_some hg
  rw [hg, Path.eq_of_same ScannedFile.path hx.index.distinct hmem hf hsame]

/-- The edits of a file that travels are those of its relative references. -/
theorem Sound.mem_ownEdits_iff (hx : x.Sound) (hs : x.Shows f s) {e : Edit} :
    e ∈ x.ownEdits ∧ e.target.same f.path = true ↔
      x.unit.travels f.path = true ∧ ∃ r ∈ f.relativeReferences, x.referenceEdit? f r = some e := by
  constructor
  · rintro ⟨he, hsame⟩
    obtain ⟨t, ht, he⟩ := List.mem_flatMap.1 he
    obtain ⟨g, u, -, hg, rfl, -⟩ := hx.own ht he
    obtain ⟨rfl, -⟩ := hx.eq_of_shows hs hg (Path.same_symm hsame)
    obtain ⟨g, moved, hfile, hmoved, r, hr, he⟩ := mem_ownEditsOf he
    rw [hx.file?_path hs.mem] at hfile
    obtain rfl := Option.some.inj hfile
    refine ⟨hx.index.travels _ ht, r, hr, ?_⟩
    unfold referenceEdit?
    rw [hmoved]
    exact he
  · rintro ⟨ht, r, hr, he⟩
    obtain ⟨moved, hmoved⟩ := Option.isSome_iff_exists.1 ht
    unfold referenceEdit? at he
    rw [hmoved] at he
    have htarget : e.target = f.path := by
      obtain ⟨-, -, -, rfl⟩ := mem_ownEdit? he
      rfl
    refine ⟨List.mem_flatMap.2 ⟨f.path, (hx.index.mem_travelling f hs.mem).2 ht, ?_⟩, ?_⟩
    · unfold ownEditsOf
      rw [hx.file?_path hs.mem, hmoved]
      exact List.mem_filterMap.2 ⟨r, hr, he⟩
    · rw [htarget]
      exact Path.same_refl _

/-- The edits of a file that stays are those of its references that name the unit, without those
    that a barrel loses. -/
theorem Sound.mem_keptDependentEdits_iff (hx : x.Sound) (hs : x.Shows f s) {e : Edit} :
    e ∈ x.keptDependentEdits ∧ e.target.same f.path = true ↔
      x.unit.travels f.path = false ∧ ∃ r ∈ Index.naming x.unit f, x.onRemoved f.path r = false ∧
        x.referenceEdit? f r = some e := by
  constructor
  · rintro ⟨he, hsame⟩
    obtain ⟨he, hkept⟩ := List.mem_filter.1 he
    obtain ⟨q, rs, hentry, r, hr, he⟩ := mem_dependentEdits.1 he
    obtain ⟨-, g, hg, rfl, rfl, ht⟩ := (hx.index.dependents q rs).1 hentry
    obtain ⟨u, hu⟩ := hx.shows hg
    have hrg := (Index.mem_naming.1 hr).1
    obtain ⟨-, htarget, hwithin⟩ := hu.dependentEdit? hrg he
    rw [htarget] at hsame
    obtain rfl := Path.eq_of_same ScannedFile.path hx.index.distinct hg hs.mem hsame
    rw [hx.any_swallows hu hrg htarget hwithin] at hkept
    exact ⟨ht, r, hr, by simpa using hkept, by rw [referenceEdit?_of_stays ht]; exact he⟩
  · rintro ⟨ht, r, hr, hkept, he⟩
    rw [referenceEdit?_of_stays ht] at he
    have hrf := (Index.mem_naming.1 hr).1
    obtain ⟨-, htarget, hwithin⟩ := hs.dependentEdit? hrf he
    refine ⟨List.mem_filter.2 ⟨mem_dependentEdits.2 ⟨f.path, _, (hx.index.dependents _ _).2
      ⟨List.ne_nil_of_mem hr, f, hs.mem, rfl, rfl, ht⟩, r, hr, he⟩, ?_⟩, ?_⟩
    · rw [hx.any_swallows hs hrf htarget hwithin, hkept]
      rfl
    · rw [htarget]
      exact Path.same_refl _

/-- **The edits of a file are those of its sites.** -/
theorem Sound.mem_edits_iff (hx : x.Sound) (hs : x.Shows f s) {e : Edit} :
    e ∈ x.plan.edits.filter (fun e => e.target.same f.path) ↔
      ∃ y ∈ x.sitesOf f, y.edit? = some e := by
  have hplan : x.plan.edits = x.keptDependentEdits ++ x.ownEdits ++ x.barrelEdits.edits := rfl
  -- a file travels or stays, so that edits of one kind alone are about it
  have hreference : (e ∈ x.keptDependentEdits ∧ e.target.same f.path = true) ∨
      (e ∈ x.ownEdits ∧ e.target.same f.path = true) ↔
        ∃ r ∈ x.rewrittenReferences f, x.referenceEdit? f r = some e := by
    rw [hx.mem_keptDependentEdits_iff hs, hx.mem_ownEdits_iff hs]
    unfold rewrittenReferences
    cases x.unit.travels f.path with
    | true => simp
    | false => simp [and_assoc]
  rw [hplan, List.mem_filter, List.mem_append, List.mem_append, or_and_right, or_and_right,
    hreference]
  unfold sitesOf
  constructor
  · rintro (⟨r, hr, he⟩ | ⟨he, hsame⟩)
    · exact ⟨_, List.mem_append_left _ (List.mem_map_of_mem hr), he⟩
    · exact ⟨_, List.mem_append_right _ (List.mem_map_of_mem (List.mem_filter.2 ⟨he, hsame⟩)), rfl⟩
  · rintro ⟨y, hy, he⟩
    rcases List.mem_append.1 hy with hy | hy
    · obtain ⟨r, hr, rfl⟩ := List.mem_map.1 hy
      exact .inl ⟨r, hr, he⟩
    · obtain ⟨b, hb, rfl⟩ := List.mem_map.1 hy
      obtain rfl := Option.some.inj he
      exact .inr (List.mem_filter.1 hb)

end

/-! ## §5. What a file says after the plan. -/

section

variable {x : Preparation} {f : ScannedFile} {s : String}

/-- The text of a file after the edits of a plan. -/
def newText (x : Preparation) (f : ScannedFile) (s : String) : String :=
  String.ofList (spliced (x.plan.edits.filter fun e => e.target.same f.path) s.toList)

/-- The edits of a scanned file can be made together. -/
theorem Sound.applyBatch_of_shows (hx : x.Sound) (hstay : x.BarrelsStay) (hs : x.Shows f s) :
    ∃ ds, applyBatch f.path s (x.plan.edits.filter fun e => e.target.same f.path)
      = .ok (x.newText f s, ds) := by
  have hfits : ∀ e ∈ x.plan.edits.filter (fun e => e.target.same f.path),
      e.FitsIn s.toList ∧ e.Substantial := by
    intro e he
    obtain ⟨he, hsame⟩ := List.mem_filter.1 he
    obtain ⟨g, t, hg⟩ := hx.placed he
    obtain ⟨rfl, rfl⟩ := hx.eq_of_shows hs hg (Path.same_symm hsame)
    exact ⟨hg.fits, hg.substantial⟩
  exact ⟨_, applyBatch_eq_ok f.path s (fun e he => (hfits e he).2)
    (fun e he => hx.bounded (List.mem_filter.1 he).1)
    (hx.pairwise_conflicts hstay f.path) fun e he => (hfits e he).1⟩

/-- When all edits have been made, a scanned file is read with its new text. -/
theorem Sound.readText_of_compatible (hx : x.Sound) (hc : x.Compatible) (hs : x.Shows f s) :
    (applyEdits x.disk x.plan.edits).2.readText f.path = .ok (x.newText f s) :=
  (hx.makes_plan hc).readText hx hs

theorem Sound.readText_applyEdits (hx : x.Sound) (hstay : x.BarrelsStay) (hs : x.Shows f s) :
    (applyEdits x.disk x.plan.edits).2.readText f.path = .ok (x.newText f s) :=
  hx.readText_of_compatible (hx.compatible_of_stays hstay) hs

/-- Sites of which the edits are those of the file are patched, and all else is kept. -/
theorem Picks.exists_patches {rs : List Reference} {edit? : Reference → Option Edit}
    (hp : x.Picks f rs edit?) (hx : x.Sound) (hc : x.Compatible) (hs : x.Shows f s)
    (hmem : ∀ e, e ∈ x.plan.edits.filter (fun e => e.target.same f.path) ↔
      ∃ y ∈ x.pickedSites f rs edit?, y.edit? = some e) :
    ∃ ps, (∀ p, p ∈ ps ↔ ∃ y ∈ x.pickedSites f rs edit?, y.patch = p) ∧
      Patched ps 0 s.toList (x.newText f s).toList := by
  unfold newText
  rw [String.toList_ofList]
  refine exists_patched (fun y hy => hp.standsIn hx hs hy) (fun y hy => hp.holds hx hs hy)
    (hp.pairwise_clear hx hs) (fun e he => hx.bounded (List.mem_filter.1 he).1)
    (hx.pairwise_not_conflicts hc f.path) ?_ hmem
  refine ((hx.pairwise_beside hc).filter _).imp_of_mem fun {a b} ha hb hab => ?_
  have hat := (List.mem_filter.1 ha).2
  have hbt := (List.mem_filter.1 hb).2
  exact (hab (Path.same_trans hat (Path.same_symm hbt))).2

/-- The sites of a file are patched, and all else is kept. -/
theorem Sound.exists_patches (hx : x.Sound) (hstay : x.BarrelsStay) (hs : x.Shows f s) :
    ∃ ps, (∀ p, p ∈ ps ↔ ∃ y ∈ x.sitesOf f, y.patch = p) ∧
      Patched ps 0 s.toList (x.newText f s).toList :=
  (hx.picks_rewritten hstay hs).exists_patches hx (hx.compatible_of_stays hstay) hs
    fun _ => hx.mem_edits_iff hs

end

/-! ## §6. What every patch is. -/

section

variable {x : Preparation} {f : ScannedFile} {s : String}

/-- What may be patched in a file. -/
inductive Accounts (x : Preparation) (f : ScannedFile) (s : String) : Patch → Prop where
  /-- A specifier: of a file that stays, one that names the unit; of a file that travels, one that
      is relative. -/
  | specifier {r : Reference} (t : String) (hr : r ∈ x.rewrittenReferences f) :
      Accounts x f s ⟨r.span, t⟩
  /-- The statement of an export of the unit, with the end of its line, in the barrel of the
      directory that the unit leaves. -/
  | removed {b : Path} {r : Reference}
      (hb : findBarrel x.disk x.project x.unit.oldParent = some b) (hsame : f.path.same b = true)
      (hr : r ∈ f.exports) (hrelative : r.isRelative = true)
      (htravels : x.unit.travels (targetOf x.project x.unit.oldParent r) = true) :
      Accounts x f s ⟨⟨r.statement.start, lineEnd s.toList r.statement.stop⟩, ""⟩
  /-- The line that exports the unit, in the barrel of the directory that it enters. -/
  | added {path : Path} {b : Barrel}
      (hb : findBarrel x.disk x.project x.unit.newParent = some path)
      (hsame : f.path.same path = true) (hread : x.barrelAt path = .ok b) :
      Accounts x f s
        ⟨(insertionOf b (x.exportLine b)).extent, (insertionOf b (x.exportLine b)).written⟩

theorem patch_specifierSite {r : Reference} {cs : List Char} (hr : r.StandsIn cs)
    (e : Option Edit) : (specifierSite r e).patch = ⟨r.span, (specifierSite r e).new⟩ := by
  have hspan : (specifierSite r e).span = r.span := extent_wholeEdit hr
  unfold Site.patch
  rw [hspan]

theorem patch_barrelSite {e : Edit} (hs : e.Substantial) :
    (barrelSite e).patch = ⟨e.extent, e.written⟩ := by
  have hold : (barrelSite e).old = "" ++ e.expected ++ "" := by
    rw [String.empty_append, String.append_empty]
    rfl
  unfold Site.patch
  rw [Site.new_of_some rfl hs hold rfl, String.empty_append, String.append_empty]
  rfl

/-- A patch is made at a reference or in a barrel. -/
theorem Sound.accounts (hx : x.Sound) (hs : x.Shows f s) {y : Site} (hy : y ∈ x.sitesOf f) :
    x.Accounts f s y.patch := by
  rcases List.mem_append.1 hy with hy | hy
  · obtain ⟨r, hr, rfl⟩ := List.mem_map.1 hy
    rw [patch_specifierSite (hs.standsIn (mem_rewrittenReferences hr).1)]
    exact .specifier _ hr
  · obtain ⟨e, he, rfl⟩ := List.mem_map.1 hy
    obtain ⟨he, hsame⟩ := List.mem_filter.1 he
    have hsame := Path.same_symm hsame
    rcases mem_barrelEdits he with ⟨b, hb, hrem, -⟩ | ⟨b, hb, hins, -⟩
    · obtain ⟨g, u, r, hg, hr, hk, rfl, ⟨l, hl⟩, ho, hstop, hrelative, htravels⟩ := hx.removal hrem
      obtain ⟨rfl, rfl⟩ := hx.eq_of_shows hs hg hsame
      have hpatch : (barrelSite e).patch
          = ⟨⟨r.statement.start, lineEnd s.toList r.statement.stop⟩, ""⟩ := by
        have hspan : e.extent = ⟨e.offset, e.extent.stop⟩ := rfl
        rw [patch_barrelSite hg.substantial, hspan, ho, hstop]
        unfold Edit.written
        rw [hl]
      rw [hpatch]
      exact .removed hb hsame (List.mem_filter.2 ⟨hr, by rw [hk]; rfl⟩) hrelative htravels
    · obtain ⟨g, u, hg, rfl, -⟩ := hx.insertion hins
      obtain ⟨c, hc, rfl⟩ := mem_insertion hins
      rw [patch_barrelSite hg.substantial]
      exact .added hb hsame hc

end

/-! ## §7. All files. -/

section

variable {x : Preparation} {f : ScannedFile} {s : String}

/-- What a plan makes of a scanned file: what stands where in its new text. -/
structure Rewrites (x : Preparation) (f : ScannedFile) (s s' : String) (ps : List Patch) :
    Prop where
  /-- Outside of the patches, the text is kept. -/
  patched : Patched ps 0 s.toList s'.toList
  /-- A specifier that is kept in the index, and that no barrel loses, leads to where its target is
      taken; if its target is not taken along, it is left as it is. -/
  dependents : ∀ rs, (f.path, rs) ∈ x.index.dependents.entries → ∀ r ∈ rs,
    ¬ Specifier.Doubled r.specifier → x.onRemoved f.path r = false →
    ∃ t, ⟨r.span, t⟩ ∈ ps ∧
      match x.unit.relocate (targetOf x.project (x.project.directoryOf f.path) r) with
      | some moved =>
        (Specifier.resolve t (x.project.directoryOf f.path) x.project.root).same moved = true
      | none => t = r.specifier
  /-- In a file that travels, a relative specifier leads, from the new directory, to where its
      target is taken; if its target is not taken along, to its target. -/
  travelling : ∀ moved, x.unit.relocate f.path = some moved → ∀ r ∈ f.relativeReferences,
    ∃ t, ⟨r.span, t⟩ ∈ ps ∧
      (Specifier.resolve t (x.project.directoryOf moved) x.project.root).same
        ((x.unit.relocate (targetOf x.project (x.project.directoryOf f.path) r)).getD
          (targetOf x.project (x.project.directoryOf f.path) r)) = true
  /-- A patch is in a specifier, or takes an export out of a barrel, or puts one in. -/
  accounts : ∀ p ∈ ps, x.Accounts f s p

theorem Sound.exists_rewrites (hx : x.Sound) {rs : List String}
    (hroot : top.GoesOn x.project.root rs) (hrel : x.Relocates) (hstay : x.BarrelsStay)
    (hs : x.Shows f s) : ∃ ps, x.Rewrites f s (x.newText f s) ps := by
  obtain ⟨ps, hps, hpatched⟩ := hx.exists_patches hstay hs
  -- each rewritten reference has a patch, if only with its old text
  have hmem : ∀ r ∈ x.rewrittenReferences f,
      ⟨r.span, (specifierSite r (x.referenceEdit? f r)).new⟩ ∈ ps := by
    intro r hr
    rw [hps]
    refine ⟨specifierSite r (x.referenceEdit? f r), ?_,
      patch_specifierSite (hs.standsIn (mem_rewrittenReferences hr).1) _⟩
    exact List.mem_append_left _ (List.mem_map_of_mem hr)
  refine ⟨ps, hpatched, ?_, ?_, ?_⟩
  · intro qs hqs r hr hdoubled hkept
    obtain ⟨-, g, hg, hpath, rfl, ht⟩ := (hx.index.dependents _ _).1 hqs
    have hsame : g.path.same f.path = true := by
      rw [hpath]
      exact Path.same_refl _
    obtain rfl := Path.eq_of_same ScannedFile.path hx.index.distinct hg hs.mem hsame
    have hr' : r ∈ x.rewrittenReferences g := by
      unfold rewrittenReferences
      rw [ht]
      exact List.mem_filter.2 ⟨hr, by rw [hkept]; rfl⟩
    obtain ⟨hrg, hrelative⟩ := mem_rewrittenReferences hr'
    refine ⟨_, hmem r hr', ?_⟩
    rw [referenceEdit?_of_stays ht]
    exact hx.read_dependent hroot hrel hs hrg hrelative hdoubled
  · intro moved hmoved r hr
    have ht : x.unit.travels f.path = true := by
      unfold MovedUnit.travels
      rw [hmoved]
      rfl
    have hr' : r ∈ x.rewrittenReferences f := by
      unfold rewrittenReferences
      rw [ht]
      exact hr
    refine ⟨_, hmem r hr', ?_⟩
    have hedit : x.referenceEdit? f r = x.ownEdit? f.path (x.project.directoryOf f.path)
        (x.project.directoryOf moved) r := by
      unfold referenceEdit?
      rw [hmoved]
    rw [hedit]
    exact hx.read_own hroot hrel hs (List.mem_filter.1 hr).2 hmoved
  · intro p hp
    obtain ⟨y, hy, rfl⟩ := (hps p).1 hp
    exact hx.accounts hs hy

end

end Preparation

/-- **What a plan makes of the files of a project.**  With the default names of sources and barrels,
    the barrels of both parent directories stay.  If they do, each scanned file holds, when the
    edits have been made, its old text but for patches: of its specifiers, which lead to where
    their targets are taken, and of the lines of barrels. -/
theorem plan_rewrites {d : Disk} {root : Path} {c : Config} {old new : Path} {pl : Plan}
    (hd : d.WellFormed) (habs : root.isAbsolute = true)
    (h : plan d (.ofRoot root c) old new = .ok pl)
    (h1 : (MovedUnit.make d (.ofRoot root c) pl.old pl.new pl.delta).newName ≠ ".")
    (h2 : (MovedUnit.make d (.ofRoot root c) pl.old pl.new pl.delta).newName ≠ "..") :
    ((Project.ofRoot root c).NamesDefault → pl.BarrelsStay d (.ofRoot root c)) ∧
    (pl.BarrelsStay d (.ofRoot root c) →
      ∃ x, Preparation.make d (.ofRoot root c) old new = .ok x ∧ pl = x.plan ∧
        (∀ e ∈ pl.edits, ∃ f ∈ x.index.scanned, f.path.same e.target = true) ∧
        ∀ f ∈ x.index.scanned, ∃ s s' ds ps, d.readText f.path = .ok s ∧
          applyBatch f.path s (pl.edits.filter fun e => e.target.same f.path) = .ok (s', ds) ∧
          (applyEdits d pl.edits).2.readText f.path = .ok s' ∧ x.Rewrites f s s' ps) := by
  obtain ⟨x, hx, rfl⟩ := Preparation.plan_eq_ok h
  have hsound := Preparation.sound_of_make hd hx
  have hnormal := Project.normal_root_ofRoot root c
  obtain ⟨rs, hroot⟩ := Path.goesOn_normalize habs
  rw [← Project.root_ofRoot root c] at hroot
  rw [Preparation.barrelsStay_plan_iff hx]
  obtain ⟨hdisk, hproject, hunit⟩ := Preparation.unit_of_make hx
  rw [hunit] at h1 h2
  have hrel := Preparation.relocates_of_make hd hroot hx h1 h2
  refine ⟨fun hp => Preparation.barrelsStay_of_default hd hnormal hp hx, fun hstay => ?_⟩
  refine ⟨x, hx, rfl, fun e he => ?_, fun f hf => ?_⟩
  · obtain ⟨f, s, hf⟩ := hsound.placed he
    exact ⟨f, hf.shows.mem, hf.same⟩
  · obtain ⟨s, hs⟩ := hsound.shows hf
    obtain ⟨ds, hds⟩ := hsound.applyBatch_of_shows hstay hs
    have hread := hsound.readText_applyEdits hstay hs
    rw [hdisk] at hread
    rw [← hproject] at hroot
    obtain ⟨ps, hps⟩ := hsound.exists_rewrites hroot hrel hstay hs
    refine ⟨s, x.newText f s, ds, ps, ?_, hds, hread, hps⟩
    rw [← hdisk]
    exact hs.text

/-- What the files of the busy disk hold after the edits. -/
def busyTexts : List (Path × String) :=
  [(⟨"/a.ts"⟩, "import './q/lib';\nimport './q/lib/m';\n"), (⟨"/index.ts"⟩, ""),
    (⟨"/lib/m.ts"⟩, "import '../../a';\n"),
    (⟨"/q/index.ts"⟩, "export const n = 1;\nexport * from './lib';\n")]

/-- The files of the busy disk are rewritten: the one that names the directory twice, the one that
    travels, and both barrels. -/
theorem busy_plan_rewrites :
    Preparation.make busyDisk smallProject ⟨"lib"⟩ ⟨"q/lib"⟩ = .ok busyPreparation ∧
      busyPreparation.plan.edits = busyEdits ∧
      ∀ f ∈ busyPreparation.index.scanned, ∃ s s' ps, busyDisk.readText f.path = .ok s ∧
        (applyEdits busyDisk busyEdits).2.readText f.path = .ok s' ∧ (f.path, s') ∈ busyTexts ∧
          busyPreparation.Rewrites f s s' ps := by
  have hname : (MovedUnit.make busyDisk smallProject busyPreparation.plan.old
      busyPreparation.plan.new busyPreparation.plan.delta).newName = "lib" := by decide +kernel
  obtain ⟨hdefault, hall⟩ := plan_rewrites wellFormed_busyDisk (by decide)
    (Preparation.plan_of_make prepared_busyDisk) (fun h => absurd (hname.symm.trans h) (by decide))
    (fun h => absurd (hname.symm.trans h) (by decide))
  obtain ⟨x, hx, -, -, hrewrites⟩ := hall (hdefault ⟨rfl, rfl⟩)
  obtain rfl := Except.ok.inj (prepared_busyDisk.symm.trans hx)
  have htexts : ∀ f ∈ busyPreparation.index.scanned, ∀ s,
      busyDisk.readText f.path = .ok s → (f.path, busyPreparation.newText f s) ∈ busyTexts := by
    have heach : ∀ f ∈ busyPreparation.index.scanned,
        (busyDisk.readText f.path).toOption.all fun s =>
          (f.path, busyPreparation.newText f s) ∈ busyTexts := by decide +kernel
    intro f hf s hs
    have hf := heach f hf
    rw [hs] at hf
    exact of_decide_eq_true hf
  have hsound := Preparation.sound_of_make wellFormed_busyDisk prepared_busyDisk
  have hstay := (Preparation.barrelsStay_plan_iff prepared_busyDisk).1 (hdefault ⟨rfl, rfl⟩)
  refine ⟨prepared_busyDisk, edits_busyPreparation, fun f hf => ?_⟩
  obtain ⟨s, s', ds, ps, hs, -, hs', hps⟩ := hrewrites f hf
  -- the new text of the file is that of its edits
  obtain ⟨t, ht⟩ := hsound.shows hf
  obtain rfl : s = t := Except.ok.inj (hs.symm.trans ht.text)
  have hnew := hs'.symm.trans (hsound.readText_applyEdits hstay ht)
  obtain rfl := Except.ok.inj hnew
  rw [edits_busyPreparation] at hs'
  exact ⟨s, _, ps, hs, hs', htexts f hf s hs, hps⟩

end ModuleMove
