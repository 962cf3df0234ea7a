import ModuleMove.Proofs.Edit.Files
import ModuleMove.Proofs.Plan.Prepared
import Mathlib.Data.List.Basic

/-!
# CONSISTENT PLANS — the edits of a plan can all be made

The edits of one file come from up to three sources: its references to the unit, its own references
when it travels, and the barrels.  They are made for one text, and each is beside all others.

Main statements:
  * `Preparation.Sound.pairwise_beside` — edits of one file are beside each other.
  * `Preparation.Sound.placed` — each edit fits the text of its file.
-/

namespace ModuleMove

open Preparation (lineEnd)

namespace Preparation

/-- The barrels of the directories that the unit leaves and enters do not travel. -/
def BarrelsStay (x : Preparation) : Prop :=
  ∀ b, findBarrel x.disk x.project x.unit.oldParent = some b ∨
      findBarrel x.disk x.project x.unit.newParent = some b →
    ∀ t ∈ x.index.travelling, t.same b = false

/-- An edit is about a scanned file, under some spelling, and fits its text. -/
structure Placed (x : Preparation) (e : Edit) (f : ScannedFile) (s : String) : Prop where
  /-- The file has been scanned with the text. -/
  shows : x.Shows f s
  /-- The edit is about the file. -/
  same : f.path.same e.target = true
  /-- The text is read at the path of the edit. -/
  text : x.disk.readText e.target = .ok s
  /-- The edit fits the text. -/
  fits : e.FitsIn s.toList
  /-- If it takes something away, it names it. -/
  substantial : e.Substantial

section

variable {x : Preparation}

theorem Shows.placed {f : ScannedFile} {s : String} {e : Edit} (h : x.Shows f s)
    (ht : e.target = f.path) (hf : e.FitsIn s.toList) (hs : e.Substantial) : x.Placed e f s :=
  ⟨h, by rw [ht]; exact Path.same_refl _, by rw [ht]; exact h.text, hf, hs⟩

theorem Placed.bounded {f : ScannedFile} {s : String} {e : Edit} (h : x.Placed e f s) :
    e.Bounded :=
  h.fits.bounded h.shows.length_lt

/-- An edit in a specifier stops at a machine word, as the text around it does. -/
theorem Shows.bounded {f : ScannedFile} {s : String} (h : x.Shows f s) {r : Reference}
    (hr : r ∈ f.references) {e : Edit} (he : e.Within r) : e.Bounded := by
  have hin := h.standsIn hr
  -- the specifier is an edit of itself, and fits
  have hwhole : (⟨f.path, r.span.start, .remove r.specifier⟩ : Edit).FitsIn s.toList :=
    hin.around
  have hlen : r.span.stop < wordCount := by
    rw [hin.stop_eq]
    exact hwhole.bounded h.length_lt
  exact Nat.lt_of_le_of_lt he.2 hlen

/-! ## §1. Where edits lie. -/

/-- An edit of a dependent's reference lies in its specifier and fits. -/
theorem Shows.dependentEdit? {f : ScannedFile} {s : String} (h : x.Shows f s) {r : Reference}
    (hr : r ∈ f.references) {e : Edit} (he : x.dependentEdit? f.path r = some e) :
    x.Placed e f s ∧ e.target = f.path ∧ e.Within r := by
  unfold Preparation.dependentEdit? at he
  obtain ⟨moved, -, he⟩ := Option.bind_eq_some_iff.1 he
  have hin := h.standsIn hr
  obtain ⟨htarget, hsub, a, b, hpart, ho, -⟩ :=
    specifierEdit?_eq_some he (respecify_ne_empty _ _ _ _) hin.stop_eq
  obtain ⟨hfit, hwithin⟩ := fitsIn_of_part hin hpart ho
  exact ⟨h.placed htarget hfit hsub, htarget, hwithin⟩

/-- A file that is kept in the index stays, and its references are among its own. -/
theorem Sound.entry (hx : x.Sound) {q : Path} {rs : List Reference}
    (h : (q, rs) ∈ x.index.dependents.entries) :
    ∃ f s, x.Shows f s ∧ f.path = q ∧ x.unit.travels q = false ∧ rs.Sublist f.references := by
  obtain ⟨-, f, hf, rfl, rfl, ht⟩ := (hx.index.dependents q rs).1 h
  obtain ⟨s, hs⟩ := hx.shows hf
  exact ⟨f, s, hs, rfl, ht, List.filter_sublist.trans List.filter_sublist⟩

/-- An edit of a dependent lies in a reference of a file that stays and names the unit. -/
theorem Sound.dependent (hx : x.Sound) {e : Edit} (h : e ∈ x.dependentEdits.edits) :
    ∃ f s r, x.Placed e f s ∧ x.unit.travels f.path = false ∧ r ∈ f.references ∧
      e.target = f.path ∧ e.Within r := by
  obtain ⟨q, rs, hm, r, hr, he⟩ := mem_dependentEdits.1 h
  obtain ⟨f, s, hs, rfl, ht, hsub⟩ := hx.entry hm
  obtain ⟨hplaced, htarget, hwithin⟩ := hs.dependentEdit? (hsub.subset hr) he
  exact ⟨f, s, r, hplaced, ht, hsub.subset hr, htarget, hwithin⟩

/-- An own edit replaces the specifier of a reference of a file that travels. -/
theorem Sound.own (hx : x.Sound) {t : Path} {e : Edit} (ht : t ∈ x.index.travelling)
    (h : e ∈ x.ownEditsOf t) :
    ∃ f s r, x.Placed e f s ∧ f.path = t ∧ r ∈ f.references ∧ e.target = t ∧ e.Within r := by
  obtain ⟨f, moved, hf, -, r, hr, he⟩ := mem_ownEditsOf h
  obtain ⟨hmem, hsame⟩ := file?_eq_some hf
  obtain rfl := hx.index.spelled t ht f hmem hsame
  obtain ⟨s, hs⟩ := hx.shows hmem
  obtain ⟨hr, hrel⟩ := List.mem_filter.1 hr
  obtain ⟨wanted, -, -, rfl⟩ := mem_ownEdit? he
  have hin := hs.standsIn hr
  have hpart : r.specifier = "" ++ r.specifier ++ "" := by
    rw [String.empty_append, String.append_empty]
  obtain ⟨hfit, hwithin⟩ :=
    fitsIn_of_part (e := ⟨f.path, r.span.start, .replace r.specifier wanted⟩) hin hpart rfl
  exact ⟨f, s, r, hs.placed rfl hfit fun _ => Reference.ne_empty_of_isRelative hrel, rfl, hr, rfl,
    hwithin⟩

/-- A removal takes the statement of an export of the barrel. -/
theorem Sound.removal (hx : x.Sound) {path : Path} {e : Edit} (h : e ∈ (x.removals path).edits) :
    ∃ f s r, x.Placed e f s ∧ r ∈ f.references ∧ r.kind = .exports ∧ e.target = path ∧
      (∃ l, e.change = .remove l) ∧ e.offset = r.statement.start ∧
      e.extent.stop = lineEnd s.toList r.statement.stop ∧ r.isRelative = true ∧
      x.unit.travels (targetOf x.project x.unit.oldParent r) = true := by
  obtain ⟨b, hb, r, hr, he⟩ := mem_removals h
  obtain ⟨f, s, hs, hsame, htext, rfl⟩ := hx.barrel hb
  obtain ⟨htravels, htarget, ho, hi, hstop, hfit⟩ := removal?_eq_some he
  obtain ⟨hr, hrelative⟩ := List.mem_filter.1 hr
  obtain ⟨hr, hk⟩ := List.mem_filter.1 hr
  have hk : r.kind = .exports := by simpa using hk
  have htarget : e.target = path := htarget
  refine ⟨f, s, r, ⟨hs, by rw [htarget]; exact hsame, by rw [htarget]; exact htext, hfit, ?_⟩,
    hr, hk, htarget, hi, ho, hstop, hrelative, htravels⟩
  intro _ h0
  have hin := (hs.standsIn hr).within
  have hle := (lineEnd_spec s.toList r.statement.stop).1
  have hext : r.extent = r.statement := by
    unfold Reference.extent
    rw [hk]
  have hempty : e.extent.stop = e.offset + byteLength e.expected.toList := rfl
  have hss := (hs.standsIn hr).start_le_stop
  rw [h0] at hempty
  simp only [String.toList_empty, byteLength_nil] at hempty
  rw [hext] at hin
  change e.extent.stop = lineEnd s.toList r.statement.stop at hstop
  omega

/-- Where an export statement of a file stops, a text can be put in. -/
theorem Shows.clear_stop {f : ScannedFile} {s : String} (h : x.Shows f s) {span : Span}
    (hspan : span ∈ f.exportStatements ++ f.exports.map (·.statement)) :
    (partAtByte? span.stop s.toList).isSome = true ∧ ∀ r ∈ f.references, r.ClearAt span.stop := by
  rcases List.mem_append.1 hspan with hspan | hspan
  · obtain ⟨hc, hclear⟩ := clearAt_of_scan h.scan hspan
    unfold coversExport at hc
    rw [Bool.and_eq_true] at hc
    exact ⟨hc.2, hclear⟩
  · obtain ⟨q, hq, rfl⟩ := List.mem_map.1 hspan
    obtain ⟨hq, hk⟩ := List.mem_filter.1 hq
    have hk : q.kind = .exports := by simpa using hk
    have hin := h.standsIn hq
    have hc := hin.covers hk
    unfold coversExport at hc
    rw [Bool.and_eq_true] at hc
    have hext : q.extent = q.statement := by
      unfold Reference.extent
      rw [hk]
    refine ⟨hc.2, fun r hr => ?_⟩
    -- the statement stops with its own reference, and the others lie beside it
    by_cases hrq : r = q
    · subst hrq
      rw [← hext]
      exact .inl (Nat.le_refl _)
    · have hapart := h.apart hr hq hrq
      have hwithin := hin.within
      have hss := hin.start_le_stop
      unfold Reference.Apart Span.overlaps at hapart
      simp only [Bool.and_eq_false_iff, decide_eq_false_iff_not, Nat.not_lt] at hapart
      rw [hext] at hapart hwithin
      rcases hapart with ha | ha
      · exact .inr ha
      · exact .inl (by omega)

/-- A line is put into a barrel where no reference stands. -/
theorem Sound.insertion (hx : x.Sound) {path : Path} {e : Edit}
    (h : e ∈ (x.insertion path).edits) :
    ∃ f s, x.Placed e f s ∧ e.target = path ∧ e.isInsert = true ∧
      ∀ r ∈ f.references, r.ClearAt e.offset := by
  obtain ⟨b, hb, rfl⟩ := mem_insertion h
  obtain ⟨f, s, hs, hsame, htext, rfl⟩ := hx.barrel hb
  have hput : ∀ n t, (partAtByte? n s.toList).isSome = true →
      (∀ r ∈ f.references, r.ClearAt n) → x.Placed ⟨path, n, .insert t⟩ f s := by
    intro n t hpart hclear
    obtain ⟨⟨a, c⟩, hac⟩ := Option.isSome_iff_exists.1 hpart
    obtain ⟨hcs, ha⟩ := partAtByte?_eq_some hac
    refine ⟨hs, hsame, htext, ⟨a, c, ?_, ha⟩, fun hi => by cases hi⟩
    rw [hcs]
    simp [Edit.expected]
  -- a line stands where a statement stops, or at the top
  unfold insertionOf
  split
  · rename_i stop hstop
    obtain ⟨span, hspan, rfl⟩ := List.mem_map.1 (mem_of_largest? hstop)
    obtain ⟨hpart, hclear⟩ := hs.clear_stop hspan
    exact ⟨f, s, hput _ _ hpart hclear, rfl, rfl, hclear⟩
  · have hpart : (partAtByte? 0 s.toList).isSome = true := by simp [partAtByte?]
    have hclear : ∀ r ∈ f.references, r.ClearAt 0 := fun r _ => .inr (Nat.zero_le _)
    exact ⟨f, s, hput _ _ hpart hclear, rfl, rfl, hclear⟩

/-! ## §2. Edits of one file. -/

/-- Edits of one file are beside each other. -/
def BesideInFile (a b : Edit) : Prop := a.target.same b.target = true → a.Beside b

/-- Edits of the place of a file with a text are about that file and text. -/
theorem Sound.eq_of_shows (hx : x.Sound) {f g : ScannedFile} {s t : String} {b : Edit}
    (hs : x.Shows f s) (hg : x.Placed b g t) (h : f.path.same b.target = true) :
    f = g ∧ s = t := by
  have hsame : f.path.same g.path = true := Path.same_trans h (Path.same_symm hg.same)
  obtain rfl := Path.eq_of_same ScannedFile.path hx.index.distinct hs.mem hg.shows.mem hsame
  exact ⟨rfl, hs.unique hg.shows⟩

/-- Edits of one place are about one file with one text. -/
theorem Sound.eq_of_same (hx : x.Sound) {a b : Edit} {f g : ScannedFile} {s t : String}
    (ha : x.Placed a f s) (hb : x.Placed b g t) (h : a.target.same b.target = true) :
    f = g ∧ s = t :=
  hx.eq_of_shows ha.shows hb (Path.same_trans ha.same h)

theorem pairwise_of_toList {α : Type} {R : α → α → Prop} (o : Option α) : o.toList.Pairwise R := by
  cases o with
  | none => exact List.Pairwise.nil
  | some a => exact List.pairwise_singleton ..

/-- What is done at the references of one file, one edit at each, is beside each other. -/
theorem Shows.pairwise_flatMap {f : ScannedFile} {s : String} (h : x.Shows f s)
    {rs : List Reference} (hrs : rs.Sublist f.references) {edit? : Reference → Option Edit}
    (hat : ∀ r ∈ rs, ∀ e, edit? r = some e → e.At s.toList r) :
    (rs.flatMap fun r => (edit? r).toList).Pairwise BesideInFile := by
  rw [List.pairwise_flatMap]
  refine ⟨fun r _ => pairwise_of_toList _, ?_⟩
  refine ((pairwise_apart_of_scan h.scan).sublist hrs).imp_of_mem
    fun {r q} hr hq ha a hea b heb => ?_
  have hea := hat r hr a (Option.mem_toList.1 hea)
  have heb := hat q hq b (Option.mem_toList.1 heb)
  intro _
  exact beside_of_apart (h.standsIn (hrs.subset hr)) (h.standsIn (hrs.subset hq)) ha hea heb

theorem Sound.pairwise_dependentEdits (hx : x.Sound) :
    x.dependentEdits.edits.Pairwise BesideInFile := by
  rw [dependentEdits_eq, List.pairwise_flatMap]
  constructor
  · rintro ⟨q, rs⟩ hm
    obtain ⟨f, s, hs, rfl, -, hsub⟩ := hx.entry hm
    refine hs.pairwise_flatMap hsub fun r hr e he => .inl ?_
    exact (hs.dependentEdit? (hsub.subset hr) he).2.2
  · -- edits of two entries are about two files
    refine hx.index.ordered.imp_of_mem fun {i j} hi hj hlt a ha b hb hsame => ?_
    exfalso
    have htarget : ∀ k ∈ x.index.dependents.entries, ∀ e ∈ k.2.flatMap fun r =>
        (x.dependentEdit? k.1 r).toList, e.target = k.1 := by
      rintro ⟨q, rs⟩ hm e he
      obtain ⟨f, s, hs, rfl, -, hsub⟩ := hx.entry hm
      obtain ⟨r, hr, he⟩ := List.mem_flatMap.1 he
      exact (hs.dependentEdit? (hsub.subset hr) (Option.mem_toList.1 he)).2.1
    rw [htarget i hi a ha, htarget j hj b hb] at hsame
    rw [Path.compare_eq_iff.2 hsame] at hlt
    cases hlt

theorem Sound.pairwise_ownEdits (hx : x.Sound) : x.ownEdits.Pairwise BesideInFile := by
  unfold ownEdits
  rw [List.pairwise_flatMap]
  constructor
  · intro t ht
    unfold ownEditsOf
    split
    · rename_i f moved hf hm
      obtain ⟨hmem, hsame⟩ := file?_eq_some hf
      obtain ⟨s, hs⟩ := hx.shows hmem
      rw [List.filterMap_eq_flatMap_toList]
      refine hs.pairwise_flatMap List.filter_sublist fun r hr e he => .inl ?_
      obtain ⟨wanted, -, -, rfl⟩ := mem_ownEdit? he
      have hin := hs.standsIn (List.mem_filter.1 hr).1
      refine (fitsIn_of_part (a := "") (b := "") hin ?_ rfl).2
      rw [String.empty_append, String.append_empty]
      rfl
    · exact List.Pairwise.nil
  -- files that travel have places of their own
  · refine hx.index.apart.imp_of_mem fun {t u} ht hu hne a ha b hb hsame => ?_
    exfalso
    obtain ⟨-, -, -, -, -, -, rfl, -⟩ := hx.own ht ha
    obtain ⟨-, -, -, -, -, -, rfl, -⟩ := hx.own hu hb
    rw [hsame] at hne
    cases hne

theorem Sound.pairwise_removals (hx : x.Sound) (path : Path) :
    (x.removals path).edits.Pairwise BesideInFile := by
  unfold removals
  split
  · exact List.Pairwise.nil
  · rename_i b hb
    obtain ⟨f, s, hs, hsame, htext, rfl⟩ := hx.barrel hb
    rw [List.filterMap_eq_flatMap_toList]
    refine hs.pairwise_flatMap (List.filter_sublist.trans List.filter_sublist)
      fun r hr e he => .inr ?_
    obtain ⟨-, -, ho, -, hstop, -⟩ := removal?_eq_some he
    have hk := (List.mem_filter.1 (List.mem_filter.1 hr).1).2
    exact ⟨by simpa using hk, ho, hstop⟩

theorem pairwise_insertion (path : Path) : (x.insertion path).edits.Pairwise BesideInFile := by
  unfold insertion
  split
  · exact List.Pairwise.nil
  · split
    · exact List.Pairwise.nil
    · exact List.pairwise_singleton ..

/-- The barrels that lose lines and that get one are two files. -/
theorem Sound.pairwise_barrelEdits (hx : x.Sound) : x.barrelEdits.edits.Pairwise BesideInFile := by
  unfold barrelEdits
  cases ha : findBarrel x.disk x.project x.unit.oldParent with
  | none =>
    cases hb : findBarrel x.disk x.project x.unit.newParent with
    | none => exact List.Pairwise.nil
    | some b => exact pairwise_insertion b
  | some a =>
    cases hb : findBarrel x.disk x.project x.unit.newParent with
    | none =>
      show ((x.removals a).edits ++ []).Pairwise _
      rw [List.append_nil]
      exact hx.pairwise_removals a
    | some b =>
      simp only
      split
      · exact List.Pairwise.nil
      · rename_i hne
        show ((x.removals a).edits ++ (x.insertion b).edits).Pairwise _
        refine List.pairwise_append.2 ⟨hx.pairwise_removals a, pairwise_insertion b, ?_⟩
        intro e he i hi hsame
        obtain ⟨-, -, -, -, -, -, rfl, -⟩ := hx.removal he
        obtain ⟨-, -, -, rfl, -⟩ := hx.insertion hi
        exact absurd hsame hne

/-- An edit of a barrel stops at a machine word. -/
theorem Sound.bounded_barrel (hx : x.Sound) {b : Edit} (hb : b ∈ x.barrelEdits.edits) :
    b.Bounded := by
  rcases mem_barrelEdits hb with ⟨a, -, hrem, -⟩ | ⟨a, -, hins, -⟩
  · obtain ⟨f, s, -, hf, -⟩ := hx.removal hrem
    exact hf.bounded
  · obtain ⟨f, s, hf, -⟩ := hx.insertion hins
    exact hf.bounded

/-! ## §3. Edits of different origins. -/

theorem swallows_iff {b e : Edit} (hb : b.Bounded) (he : e.Bounded) :
    b.swallows e = true ↔ (∃ l, b.change = .remove l) ∧ b.target.same e.target = true ∧
      b.extent.contains e.extent = true := by
  unfold Edit.swallows
  rw [hb.span_eq, he.span_eq]
  constructor
  · intro h
    split at h
    · rename_i l hl
      rw [Bool.and_eq_true] at h
      exact ⟨⟨l, hl⟩, h⟩
    · cases h
  · rintro ⟨⟨l, hl⟩, hsame, hcontains⟩
    rw [hl, hsame, hcontains]
    rfl

/-- An edit in a specifier lies in the stretch that the removal of its statement takes. -/
theorem contains_of_removal {b e : Edit} {r : Reference} {cs : List Char} (hr : r.StandsIn cs)
    (hk : r.kind = .exports) (he : e.Within r) (ho : b.offset = r.statement.start)
    (hstop : b.extent.stop = lineEnd cs r.statement.stop) : b.extent.contains e.extent = true := by
  have hinside := he.inside hr
  have hext : r.extent = r.statement := by
    unfold Reference.extent
    rw [hk]
  rw [hext] at hinside
  have hle := (lineEnd_spec cs r.statement.stop).1
  unfold Span.contains
  rw [Bool.and_eq_true, decide_eq_true_eq, decide_eq_true_eq, hstop]
  exact ⟨by show b.offset ≤ e.offset; omega, by omega⟩

/-- What is done in a specifier is away from an edit of a barrel, or lies in what the barrel
    loses. -/
theorem Sound.away_barrel_or_contains (hx : x.Sound) {f : ScannedFile} {s : String}
    (hs : x.Shows f s) {r : Reference} (hr : r ∈ f.references) {b : Edit}
    (hb : b ∈ x.barrelEdits.edits) (hsame : f.path.same b.target = true) :
    (∀ e : Edit, e.Within r → e.Away b) ∨
      (∃ l, b.change = .remove l) ∧ ∀ e : Edit, e.Within r → b.extent.contains e.extent = true := by
  have hin := hs.standsIn hr
  rcases mem_barrelEdits hb with ⟨a, -, hrem, -⟩ | ⟨a, -, hins, -⟩
  · obtain ⟨g, t, q, hg, hq, hk, -, hl, ho, hstop, -⟩ := hx.removal hrem
    obtain ⟨rfl, rfl⟩ := hx.eq_of_shows hs hg hsame
    by_cases hrq : r = q
    · -- the specifier stands in the statement that is removed
      subst hrq
      exact .inr ⟨hl, fun e he => contains_of_removal hin hk he ho hstop⟩
    · exact .inl fun e he => away_of_apart hin (hs.standsIn hq) (hs.apart hr hq hrq) he
        (.inr ⟨hk, ho, hstop⟩)
  · obtain ⟨g, t, hg, -, hi, hclear⟩ := hx.insertion hins
    obtain ⟨rfl, rfl⟩ := hx.eq_of_shows hs hg hsame
    exact .inl fun e he => away_of_clearAt hin hi (hclear r hr) he

/-- An edit of a dependent that is kept is beside those of the barrels. -/
theorem Sound.dependent_beside_barrel (hx : x.Sound) {e b : Edit}
    (he : e ∈ x.keptDependentEdits) (hb : b ∈ x.barrelEdits.edits) : BesideInFile e b := by
  intro hsame
  obtain ⟨hed, hkept⟩ := List.mem_filter.1 he
  obtain ⟨f, s, r, hf, -, hr, -, hwithin⟩ := hx.dependent hed
  rcases hx.away_barrel_or_contains hf.shows hr hb (Path.same_trans hf.same hsame) with h | h
  · exact (h e hwithin).beside
  · -- the edit would lie in the statement that is removed
    exfalso
    obtain ⟨hl, hcontains⟩ := h
    have hswallows := (swallows_iff (hx.bounded_barrel hb) hf.bounded).2
      ⟨hl, Path.same_symm hsame, hcontains e hwithin⟩
    rw [List.any_eq_true.2 ⟨b, hb, hswallows⟩] at hkept
    cases hkept

/-- A file does not both stay and travel. -/
theorem Sound.dependent_beside_own (hx : x.Sound) {e b : Edit} (he : e ∈ x.dependentEdits.edits)
    (hb : b ∈ x.ownEdits) : BesideInFile e b := by
  intro hsame
  exfalso
  obtain ⟨f, s, r, hf, hstays, -⟩ := hx.dependent he
  obtain ⟨t, ht, hb⟩ := List.mem_flatMap.1 hb
  obtain ⟨g, u, q, hg, rfl, -⟩ := hx.own ht hb
  obtain ⟨rfl, -⟩ := hx.eq_of_same hf hg hsame
  rw [hx.index.travels f.path ht] at hstays
  cases hstays

/-- No travelling file is a barrel that is edited. -/
theorem Sound.not_same_barrel (hx : x.Sound) (hstay : x.BarrelsStay) {b : Edit}
    (hb : b ∈ x.barrelEdits.edits) {t : Path} (ht : t ∈ x.index.travelling) :
    t.same b.target = false := by
  rcases mem_barrelEdits hb with ⟨a, ha, hrem, -⟩ | ⟨a, ha, hins, -⟩
  · obtain ⟨-, -, -, -, -, -, rfl, -⟩ := hx.removal hrem
    exact hstay _ (.inl ha) _ ht
  · obtain ⟨-, -, -, rfl, -⟩ := hx.insertion hins
    exact hstay _ (.inr ha) _ ht

/-- A barrel that stays has no own edits. -/
theorem Sound.own_beside_barrel (hx : x.Sound) (hstay : x.BarrelsStay) {e b : Edit}
    (he : e ∈ x.ownEdits) (hb : b ∈ x.barrelEdits.edits) : BesideInFile e b := by
  intro hsame
  exfalso
  obtain ⟨t, ht, he⟩ := List.mem_flatMap.1 he
  obtain ⟨-, -, -, -, -, -, rfl, -⟩ := hx.own ht he
  have := hx.not_same_barrel hstay hb ht
  rw [hsame] at this
  cases this

/-- What is done in a file that travels is beside what is done in it as a barrel. -/
def Compatible (x : Preparation) : Prop :=
  ∀ e ∈ x.ownEdits, ∀ b ∈ x.barrelEdits.edits, BesideInFile e b

theorem Sound.compatible_of_stays (hx : x.Sound) (hstay : x.BarrelsStay) : x.Compatible :=
  fun _ he _ hb => hx.own_beside_barrel hstay he hb

/-! ## §4. All edits. -/

/-- **Edits of one file are beside each other**, if those of barrels that travel are. -/
theorem Sound.pairwise_beside (hx : x.Sound) (hc : x.Compatible) :
    x.plan.edits.Pairwise BesideInFile := by
  show (x.keptDependentEdits ++ x.ownEdits ++ x.barrelEdits.edits).Pairwise _
  refine List.pairwise_append.2 ⟨List.pairwise_append.2 ⟨?_, hx.pairwise_ownEdits, ?_⟩,
    hx.pairwise_barrelEdits, ?_⟩
  · exact hx.pairwise_dependentEdits.filter _
  · exact fun e he b hb => hx.dependent_beside_own (List.mem_filter.1 he).1 hb
  · intro e he b hb
    rcases List.mem_append.1 he with he | he
    · exact hx.dependent_beside_barrel he hb
    · exact hc e he b hb

/-- **Each edit is about a scanned file and fits its text.** -/
theorem Sound.placed (hx : x.Sound) {e : Edit} (he : e ∈ x.plan.edits) :
    ∃ f s, x.Placed e f s := by
  have he : e ∈ x.keptDependentEdits ++ x.ownEdits ++ x.barrelEdits.edits := he
  rcases List.mem_append.1 he with he | he
  · rcases List.mem_append.1 he with he | he
    · obtain ⟨f, s, -, h, -⟩ := hx.dependent (List.mem_filter.1 he).1
      exact ⟨f, s, h⟩
    · obtain ⟨t, ht, he⟩ := List.mem_flatMap.1 he
      obtain ⟨f, s, -, h, -⟩ := hx.own ht he
      exact ⟨f, s, h⟩
  · rcases mem_barrelEdits he with ⟨a, -, he, -⟩ | ⟨a, -, he, -⟩
    · obtain ⟨f, s, -, h, -⟩ := hx.removal he
      exact ⟨f, s, h⟩
    · obtain ⟨f, s, h, -⟩ := hx.insertion he
      exact ⟨f, s, h⟩

end

end Preparation

end ModuleMove
