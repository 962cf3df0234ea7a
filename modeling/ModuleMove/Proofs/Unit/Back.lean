import ModuleMove.Plan.Specifiers
import ModuleMove.Proofs.Dependents.Straight
import ModuleMove.Proofs.Unit.Carried

/-!
# THE WAY BACK — a move that is undone leaves no trace in paths and specifiers

The unit that goes from the new place to the old one takes every path back that the first one has
taken along.  A specifier that has been rewritten for the first move leads, once it is rewritten
for the second one, to what it led to; if it was written as a specifier is written for its target,
it is the same text again.

The one trap is in the names of files: what is cut off as a source extension depends on the whole
name, so a new name that itself ends like a source file would be cut where the old one was not.

Main statements:
  * `Reverses.relocate_back` — what has been taken along is taken back.
  * `restores_of_back` — a specifier is rewritten back.
  * `round_trip` — both, for the unit of a move and the one of its reverse.
-/

namespace ModuleMove

open ModuleMove.Path

/-! ## §1. Names that end like source files. -/

/-- The text ends with a dot and one of the extensions. -/
def EndsInSource (s : String) (extensions : List String) : Prop :=
  ∃ ext ∈ extensions, ∃ stem, s = stem ++ ("." ++ ext)

theorem endsInSource_iff {s : String} {extensions : List String} :
    EndsInSource s extensions ↔ ∃ ext ∈ extensions, (beforeEnd? ("." ++ ext) s).isSome = true := by
  refine exists_congr fun ext => and_congr_right fun _ => ?_
  rw [Option.isSome_iff_exists]
  exact exists_congr fun stem => beforeEnd?_eq_some.symm

instance (s : String) (extensions : List String) : Decidable (EndsInSource s extensions) :=
  decidable_of_iff _ endsInSource_iff.symm

section

variable {s m n rest z : String} {extensions : List String}

theorem stripSourceExtension_of_not_endsInSource (h : ¬ EndsInSource s extensions) :
    stripSourceExtension s extensions = s := by
  obtain ⟨rest, hs, rfl | ⟨-, ext, hext, rfl⟩⟩ := exists_stripSourceExtension s extensions
  · rw [String.append_empty] at hs
    exact hs.symm
  · exact absurd ⟨ext, hext, _, hs⟩ h

/-- Where something that begins with a dot ends like a source file, it does so on its own: the
    last dot is not in front of it. -/
theorem EndsInSource.of_append {t : String} (hdots : ∀ x ∈ extensions, '.' ∉ x.toList)
    (h : EndsInSource (m ++ ("." ++ t)) extensions) : EndsInSource ("." ++ t) extensions := by
  obtain ⟨ext, hext, stem, heq⟩ := h
  refine ⟨ext, hext, ?_⟩
  have hlist := congrArg String.toList heq
  rw [String.toList_append, String.toList_append (s := stem)] at hlist
  rcases List.append_eq_append_iff.1 hlist with ⟨as, -, hs⟩ | ⟨as, -, ht⟩
  · exact ⟨String.ofList as, String.toList_inj.1 (by rw [hs]; simp)⟩
  · cases as with
    | nil =>
      refine ⟨"", String.toList_inj.1 ?_⟩
      rw [List.nil_append] at ht
      simp [ht]
    | cons c as =>
      -- the extension would have a dot in it
      rw [String.toList_append, String.toList_append (s := ".")] at ht
      have hext' : ext.toList = as ++ '.' :: t.toList := (List.cons.inj ht).2
      exact absurd (by rw [hext']; simp) (hdots ext hext)

/-- **A new name is cut where the old one was**, if it does not end like a source file itself. -/
theorem stripSourceExtension_renamed (hdots : ∀ x ∈ extensions, '.' ∉ x.toList) (hn : n ≠ "")
    (hm : m ≠ "") (hend : ¬ EndsInSource m extensions)
    (hrest : rest = "" ∨ ∃ t, rest = "." ++ t)
    (hz : z = "" ∨ ∃ ext ∈ extensions, z = "." ++ ext)
    (h : stripSourceExtension (n ++ rest ++ z) extensions = n ++ rest) :
    stripSourceExtension (m ++ rest ++ z) extensions = m ++ rest := by
  rcases hz with rfl | ⟨ext, hext, rfl⟩
  · rw [String.append_empty] at h ⊢
    refine stripSourceExtension_of_not_endsInSource fun hbad => ?_
    rcases hrest with rfl | ⟨t, rfl⟩
    · rw [String.append_empty] at hbad
      exact hend hbad
    · -- the old name would end in the same way, and would have been cut
      obtain ⟨ext, hext, stem, heq⟩ := hbad.of_append hdots
      have hne : n ++ stem ≠ "" := fun h0 => hn (String.append_eq_empty_iff.1 h0).1
      have hshorter := length_stripSourceExtension hne hext
      rw [String.append_assoc, ← heq, h] at hshorter
      exact absurd hshorter (Nat.lt_irrefl _)
  · exact stripSourceExtension_append (fun h0 => hm (String.append_eq_empty_iff.1 h0).1) hext hdots

end

namespace MovedUnit

/-! ## §2. The unit that goes back. -/

/-- The unit `v` goes the way of `u` back. -/
structure Reverses (u v : MovedUnit) : Prop where
  /-- Both are of one kind. -/
  style : v.style = u.style
  /-- What goes back has the new name, -/
  name : v.name = u.newName
  /-- and gets the old one. -/
  newName : v.newName = u.name
  /-- It leaves the directory that was entered, -/
  oldParent : v.oldParent = u.newParent
  /-- and enters the one that was left. -/
  newParent : v.newParent = u.oldParent
  /-- A directory goes from where it has arrived, -/
  old : u.style = .directory → v.old = u.newModule
  /-- The same files are source files. -/
  extensions : v.extensions = u.extensions
  /-- The same files are companions. -/
  specSuffixes : v.specSuffixes = u.specSuffixes

section

variable {d d' : Disk} {p : Project} {old new : Path} {δ δ' : Delta} {rs os ns : List String}

/-- The unit of the reverse move goes the way back. -/
theorem reverses_of_delta (hroot : p.root.Straight rs) (hold : old.Straight os)
    (hnew : new.Straight ns) (hδ : Delta.compute old new p.root = .ok δ)
    (hδ' : Delta.compute new old p.root = .ok δ')
    (hsame : d'.hasDirectory new = d.hasDirectory old) :
    (make d p old new δ).Reverses (make d' p new old δ') := by
  have hstyle : (make d' p new old δ').style = (make d p old new δ).style := by
    rw [Preparation.style_make, Preparation.style_make, hsame]
  -- each unit leaves the directory of its path, and enters the one of the other path
  obtain ⟨gs, b, rfl, henter⟩ := straight_newParent (d := d) hroot hold hnew hδ
  obtain ⟨as, a, rfl, henter'⟩ := straight_newParent (d := d') hroot hnew hold hδ'
  have hleave : ∀ {d : Disk} {o n : Path} {δ : Delta} {ks : List String} {k : String},
      o.Straight (ks ++ [k]) → (make d p o n δ).oldParent.Straight ks := by
    intro d o n δ ks k ho
    obtain ⟨q, hq, hqs⟩ := ho.exists_parent
    have heq : (make d p o n δ).oldParent = q := by
      show o.parent?.getD p.root = q
      rw [hq]
      rfl
    exact heq ▸ hqs
  refine ⟨hstyle, ?_, ?_, (hleave hnew).ext henter, henter'.ext (hleave hold), fun hs => ?_, rfl,
    rfl⟩
  · show nameOf (make d' p new old δ').style p.extensions new = _
    rw [hstyle]
    rfl
  · show nameOf (make d' p new old δ').style p.extensions old = _
    rw [hstyle]
    rfl
  · exact (newModule_of_straight hroot hold hnew hδ hs).symm

end

/-! ## §3. Paths. -/

section

variable {u v : MovedUnit} {p q : Path} {ks : List String}

/-- What a name becomes that begins with the unit's name. -/
theorem renamed?_append {rest : String} (h : rest = "" ∨ u.isCompanionEnd rest = true)
    (z : String) :
    u.renamed? (u.name ++ rest ++ z) (u.name ++ rest) = some (u.newName ++ rest ++ z) := by
  have hdrop : (u.name ++ rest ++ z).toList.drop u.name.length = (rest ++ z).toList := by
    rw [String.append_assoc, String.toList_append, ← String.length_toList, List.drop_left]
  unfold renamed?
  rw [afterStart?_eq_some.2 rfl]
  simp only
  rw [if_pos (by simpa using h), hdrop, String.ofList_toList, String.append_assoc]

/-- What is put behind the name of a companion begins with a dot. -/
theorem exists_of_isCompanionEnd {rest : String} (h : u.isCompanionEnd rest = true) :
    ∃ t, rest = "." ++ t := by
  unfold isCompanionEnd at h
  split at h
  · exact ⟨_, afterStart?_eq_some.1 ‹_›⟩
  · cases h

/-- **The new name of a file is taken back to the old one.** -/
theorem Reverses.relocatedName? (hv : u.Reverses v) (hname : u.name ≠ "") (hnew : u.newName ≠ "")
    (hdots : ∀ x ∈ u.extensions, '.' ∉ x.toList) (hend : ¬ EndsInSource u.newName u.extensions)
    {f t : String} (h : u.relocatedName? f = some t) : v.relocatedName? t = some f := by
  obtain ⟨z, hf, hz⟩ := exists_stripSourceExtension f u.extensions
  obtain ⟨rest, hstem, hor, -⟩ := renamed?_eq_some h
  rw [hstem] at hf
  have ht : t = u.newName ++ rest ++ z := by
    unfold MovedUnit.relocatedName? at h
    rw [hstem, hf, renamed?_append hor] at h
    exact (Option.some.inj h).symm
  -- the new name is cut at the same place, and what is left is that of the unit going back
  have hcut : stripSourceExtension t u.extensions = u.newName ++ rest := by
    rw [ht]
    exact stripSourceExtension_renamed hdots hname hnew hend
      (hor.imp_right exists_of_isCompanionEnd) (hz.imp_right And.right) (by rw [← hf, hstem])
  have hor' : rest = "" ∨ v.isCompanionEnd rest = true := by
    unfold isCompanionEnd at hor ⊢
    rwa [hv.specSuffixes]
  unfold MovedUnit.relocatedName?
  rw [hv.extensions, hcut, ht, ← hv.name, renamed?_append hor', hv.newName, ← hf]

/-- A directory that goes back is written by its names. -/
theorem Reverses.isStraight (hv : u.Reverses v) (hu : u.IsStraight) (hs : u.style = .directory) :
    v.IsStraight := by
  refine ⟨?_, ?_, fun _ => ?_, ?_⟩
  · rw [hv.oldParent]
    exact hu.enters
  · rw [hv.newParent]
    exact hu.leaves
  · rw [hv.old hs, hv.oldParent, hv.name]
    exact hu.newModule
  · rw [hv.newName]
    exact (hu.old hs).1 _ (by simp)

/-- The course of the unit that goes back. -/
theorem Reverses.course (hv : u.Reverses v) : v.course = u.course.back := by
  unfold MovedUnit.course Course.back
  rw [hv.style, hv.name, hv.newName, hv.oldParent, hv.newParent]

/-- **What has been taken along is taken back.** -/
theorem Reverses.relocate_back (hv : u.Reverses v) (hu : u.IsStraight) (hname : u.name ≠ "")
    (hdots : ∀ x ∈ u.extensions, '.' ∉ x.toList)
    (hend : u.style = .file → ¬ EndsInSource u.newName u.extensions) (hp : p.Straight ks)
    (h : u.relocate p = some q) : v.relocate q = some p := by
  cases hs : u.style with
  | file =>
    obtain ⟨f, t, hf, hc, ht, rfl⟩ := relocate_of_file hs h
    have htn := isName_relocatedName? hu.newName hf ht
    have hback := hv.relocatedName? hname hu.newName.1 hdots (hend hs) ht
    obtain rfl : p = u.oldParent.join ⟨f⟩ := by
      rw [hp.eq_append hu.leaves [f] hc] at hp
      exact hp.ext (hu.leaves.join hf)
    rw [← hv.oldParent, relocate_join (hv.style.trans hs) htn, hback, hv.newParent]
    rfl
  | directory =>
    obtain ⟨js, hq, hcarried⟩ := straight_relocate hu hp h
    have hs' : v.style = .directory := hv.style.trans hs
    -- the new place lies in the directory that goes back, and there is one way back
    have htravels : v.travels q = true := by
      obtain ⟨rest, -, rfl⟩ := (Course.carried_iff_of_directory hs).1 hcarried
      rw [travels_of_directory hs', hv.old hs, hq.isUnder_iff hu.newModule]
      exact ⟨rest, by rw [List.append_assoc]; rfl⟩
    obtain ⟨p', hp'⟩ := Option.isSome_iff_exists.1 htravels
    obtain ⟨is, his, hcarried'⟩ := straight_relocate (hv.isStraight hu hs) hq hp'
    rw [hv.course] at hcarried'
    obtain rfl := hcarried.back.unique hcarried'
    rw [hp', his.ext hp]

end

/-! ## §4. Specifiers. -/

/-- What a specifier becomes when its file goes from the directory `dir` to `dir'` and the unit is
    moved: it is written anew for the place where its target is then. -/
def rewritten (u : MovedUnit) (root dir dir' : Path) (specifier : String) : String :=
  Specifier.respecify specifier dir' (u.led (Specifier.resolve specifier dir root)) root

/-- In files that travel, this is what is written. -/
theorem ownEdit?_eq_rewritten (x : Preparation) (file dir dir' : Path) (r : Reference) :
    x.ownEdit? file dir dir' r =
      if x.unit.rewritten x.project.root dir dir' r.specifier == r.specifier then none
      else some ⟨file, r.span.start, .replace r.specifier
        (x.unit.rewritten x.project.root dir dir' r.specifier)⟩ := rfl

/-- In files that stay, it is what references to the unit are edited to. -/
theorem dependentEdit_eq_rewritten (x : Preparation) (file : Path) (r : Reference)
    (h : x.unit.travels (Preparation.targetOf x.project (x.project.directoryOf file) r) = true) :
    x.dependentEdit file r = ⟨(specifierEdit? file r (x.unit.rewritten x.project.root
      (x.project.directoryOf file) (x.project.directoryOf file) r.specifier)).toList, []⟩ := by
  obtain ⟨m, hm⟩ := Option.isSome_iff_exists.1 h
  unfold Preparation.dependentEdit rewritten led
  simp only [hm]
  unfold Preparation.targetOf at hm
  rw [hm]
  rfl

/-- A specifier in a file that goes from `dir` to `dir'` is rewritten for `u`, and then back for
    `v`. -/
structure Restores (u v : MovedUnit) (root dir dir' : Path) (s : String) : Prop where
  /-- In between, it leads to where its target is then. -/
  there : Specifier.resolve (u.rewritten root dir dir' s) dir' root =
    u.led (Specifier.resolve s dir root)
  /-- At the end, it leads to its target again. -/
  back : Specifier.resolve (v.rewritten root dir' dir (u.rewritten root dir dir' s)) dir root =
    Specifier.resolve s dir root
  /-- If it was written as it would be for its target, it is the same text again. -/
  text : Specifier.respecify s dir (Specifier.resolve s dir root) root = s →
    v.rewritten root dir' dir (u.rewritten root dir dir' s) = s

section

variable {u v : MovedUnit} {root dir dir' t : Path} {rs as bs ts ks : List String} {s : String}

/-- What a specifier is written as depends on how it is read, and on nothing else of its text. -/
theorem respecify_congr {s' : String} (h : Specifier.isAnchored s' = Specifier.isAnchored s) :
    Specifier.respecify s' dir t root = Specifier.respecify s dir t root := by
  unfold Specifier.isAnchored at h
  unfold Specifier.respecify
  rw [h]

/-- What is written for a straight path leads to that very path. -/
theorem resolve_respecify_eq (hdir : dir.Straight as) (hroot : root.Straight rs)
    (ht : t.Straight ts) :
    Specifier.resolve (Specifier.respecify s dir t root) dir root = t := by
  have hsame := Specifier.resolve_respecify s hdir.goesOn hroot.goesOn ht.goesOn
  obtain ⟨us, hus⟩ := Specifier.straight_resolve hdir hroot (Specifier.respecify s dir t root)
  rw [(hus.same_iff ht).1 hsame] at hus
  exact hus.ext ht

/-- A path is led to a straight path. -/
theorem IsStraight.straight_led (hu : u.IsStraight) (ht : t.Straight ts) :
    ∃ js, (u.led t).Straight js := by
  unfold led
  cases hm : u.relocate t with
  | none => exact ⟨ts, ht⟩
  | some m =>
    obtain ⟨js, hjs, -⟩ := straight_relocate hu ht hm
    exact ⟨js, hjs⟩

/-- **A specifier is rewritten back** if its target is led there and back. -/
theorem restores_of_back (hu : u.IsStraight) (hroot : root.Straight rs) (hdir : dir.Straight as)
    (hdir' : dir'.Straight bs) (hback : v.led (u.led (Specifier.resolve s dir root)) =
      Specifier.resolve s dir root) : u.Restores v root dir dir' s := by
  obtain ⟨ts, ht⟩ := Specifier.straight_resolve hdir hroot s
  obtain ⟨js, hjs⟩ := hu.straight_led ht
  have hthere : Specifier.resolve (u.rewritten root dir dir' s) dir' root =
      u.led (Specifier.resolve s dir root) := resolve_respecify_eq hdir' hroot hjs
  -- the second time, the specifier is written anew from where the first time it has been led to
  have hwritten : v.rewritten root dir' dir (u.rewritten root dir dir' s) =
      Specifier.respecify s dir (Specifier.resolve s dir root) root := by
    unfold rewritten at hthere ⊢
    rw [hthere, hback]
    exact respecify_congr (Specifier.isAnchored_respecify s hdir'.goesOn hjs.goesOn)
  refine ⟨hthere, ?_, fun htext => ?_⟩
  · rw [hwritten]
    exact resolve_respecify_eq hdir hroot ht
  · rw [hwritten, htext]

/-- What is taken along is led there and back. -/
theorem led_back_of_relocate {m : Path} (h : u.relocate t = some m)
    (hback : v.relocate m = some t) : v.led (u.led t) = t := by
  unfold led
  rw [h, Option.getD_some, hback, Option.getD_some]

/-- What neither unit takes along is not led away. -/
theorem led_back_of_stays (h : u.travels t = false) (h' : v.travels t = false) :
    v.led (u.led t) = t := by
  unfold travels at h h'
  rw [Option.isSome_eq_false_iff, Option.isNone_iff_eq_none] at h h'
  unfold led
  rw [h, Option.getD_none, h', Option.getD_none]

end

/-! ## §5. There and back. -/

/-- The unit `v` undoes in a project what `u` does to paths and specifiers. -/
structure Undoes (p : Project) (u v : MovedUnit) : Prop where
  /-- What is taken along is taken back. -/
  relocate : ∀ q r : Path, q.Settled → u.relocate q = some r → v.relocate r = some q
  /-- Different paths are taken to different places. -/
  injective : ∀ q q' r : Path, q.Settled → q'.Settled → u.relocate q = some r →
    u.relocate q' = some r → q = q'
  /-- What leads to something that is taken along is rewritten back, in any directory. -/
  stays : ∀ (dir : Path) (s : String), dir.Settled →
    u.travels (Specifier.resolve s dir p.root) = true → u.Restores v p.root dir dir s
  /-- In a file that travels, so is what leads to something that is taken along, or that neither
      move has to do with. -/
  travels : ∀ (f g : Path) (s : String), f.Settled → u.relocate f = some g →
    (u.travels (Specifier.resolve s (p.directoryOf f) p.root) = true ∨
      u.travels (Specifier.resolve s (p.directoryOf f) p.root) = false ∧
      v.travels (Specifier.resolve s (p.directoryOf f) p.root) = false) →
    u.Restores v p.root (p.directoryOf f) (p.directoryOf g) s

section

variable {d d' : Disk} {p : Project} {old new : Path} {δ δ' : Delta} {u v : MovedUnit}
  {rs : List String}

/-- A unit is undone by the one that goes back. -/
theorem Reverses.undoes (hv : u.Reverses v) (hroot : p.root.Straight rs) (hu : u.IsStraight)
    (hname : u.name ≠ "") (hdots : ∀ x ∈ u.extensions, '.' ∉ x.toList)
    (hend : u.style = .file → ¬ EndsInSource u.newName u.extensions) : Undoes p u v := by
  have hback : ∀ q r : Path, (∃ ks, q.Straight ks) → u.relocate q = some r →
      v.relocate r = some q := by
    rintro q r ⟨ks, hq⟩ h
    exact hv.relocate_back hu hname hdots hend hq h
  have hled : ∀ t : Path, (∃ ts, t.Straight ts) → u.travels t = true → v.led (u.led t) = t := by
    intro t ht h
    obtain ⟨m, hm⟩ := Option.isSome_iff_exists.1 h
    exact led_back_of_relocate hm (hback t m ht hm)
  constructor
  case relocate => exact fun q r hq h => hback q r hq.exists_straight h
  case injective =>
    intro q q' r hq hq' h h'
    have hq := hback q r hq.exists_straight h
    rw [hback q' r hq'.exists_straight h'] at hq
    exact (Option.some.inj hq).symm
  case stays =>
    intro dir s hdir h
    obtain ⟨as, hdir⟩ := hdir.exists_straight
    exact restores_of_back hu hroot hdir hdir
      (hled _ (Specifier.straight_resolve hdir hroot s) h)
  case travels =>
    intro f g s hf hg h
    obtain ⟨ks, hf⟩ := hf.exists_straight
    obtain ⟨js, hjs, -⟩ := straight_relocate hu hf hg
    obtain ⟨as, hdir⟩ := Project.straight_directoryOf hroot hf
    obtain ⟨bs, hdir'⟩ := Project.straight_directoryOf hroot hjs
    refine restores_of_back hu hroot hdir hdir' ?_
    rcases h with h | ⟨h, h'⟩
    · exact hled _ (Specifier.straight_resolve hdir hroot s) h
    · exact led_back_of_stays h h'

/-- **The way back leaves no trace**: what the unit of a move does to paths and specifiers is undone
    by the unit of the reverse move, unless the new name itself ends like a source file. -/
theorem round_trip (hroot : p.root.Settled) (hold : old.Settled) (hnew : new.Settled)
    (hδ : Delta.compute old new p.root = .ok δ) (hδ' : Delta.compute new old p.root = .ok δ')
    (hsame : d'.hasDirectory new = d.hasDirectory old)
    (hdots : ∀ ext ∈ p.extensions, '.' ∉ ext.toList)
    (h1 : (make d p old new δ).newName ≠ ".") (h2 : (make d p old new δ).newName ≠ "..")
    (hend : (make d p old new δ).style = .file →
      ¬ EndsInSource (make d p old new δ).newName p.extensions) :
    Undoes p (make d p old new δ) (make d' p new old δ') := by
  obtain ⟨rs, hroot⟩ := hroot.exists_straight
  obtain ⟨os, hold⟩ := hold.exists_straight
  obtain ⟨ns, hnew⟩ := hnew.exists_straight
  have hv := reverses_of_delta (d := d) hroot hold hnew hδ hδ' hsame
  obtain ⟨as, a, gs, hold, hleave, henter⟩ :=
    exists_straight_of_delta (d := d) hroot hold hnew.isAbsolute hδ
  obtain ⟨ks, b, rfl, -⟩ := straight_newParent (d := d) hroot hold hnew hδ
  -- both names are what is left of names, and the new one is no step
  obtain ⟨hname, -⟩ := Preparation.text_nameOf (make d p old new δ).style p.extensions
    (Preparation.fileName?_of_goesOn hold.goesOn)
  obtain ⟨h0, hslash⟩ := Preparation.text_nameOf (make d p old new δ).style p.extensions
    (Preparation.fileName?_of_goesOn hnew.goesOn)
  exact hv.undoes hroot (isStraight_of_names hold hleave henter ⟨h0, h1, h2, hslash⟩) hname hdots
    hend

/-- The source file of the styled disk, on its way into another directory and to another name. -/
def leavingUnit : MovedUnit :=
  .make styledDisk (.ofRoot ⟨"/"⟩ Config.default) ⟨"/app/foo.ts"⟩ ⟨"/lib/bar.ts"⟩
    ⟨"lib", .across, 1, ["app"], ["lib"]⟩

/-- The same file on its way back. -/
def returningUnit : MovedUnit :=
  .make styledDisk (.ofRoot ⟨"/"⟩ Config.default) ⟨"/lib/bar.ts"⟩ ⟨"/app/foo.ts"⟩
    ⟨"app", .across, 1, ["lib"], ["app"]⟩

/-- A companion is taken back to its old name, and a reference to the file to its old text. -/
theorem styled_round_trip :
    leavingUnit.relocate ⟨"/app/foo.spec.ts"⟩ = some ⟨"/lib/bar.spec.ts"⟩ ∧
      returningUnit.relocate ⟨"/lib/bar.spec.ts"⟩ = some ⟨"/app/foo.spec.ts"⟩ ∧
      leavingUnit.rewritten ⟨"/"⟩ ⟨"/"⟩ ⟨"/"⟩ "./app/foo" = "./lib/bar" ∧
      returningUnit.rewritten ⟨"/"⟩ ⟨"/"⟩ ⟨"/"⟩ "./lib/bar" = "./app/foo" := by
  have hundoes : Undoes (.ofRoot ⟨"/"⟩ Config.default) leavingUnit returningUnit :=
    round_trip (by decide +kernel) (by decide +kernel) (by decide +kernel) (by decide +kernel)
      (by decide +kernel) (by decide +kernel) (by decide +kernel) (by decide +kernel)
      (by decide +kernel) (by decide +kernel)
  have hmoved : leavingUnit.relocate ⟨"/app/foo.spec.ts"⟩ = some ⟨"/lib/bar.spec.ts"⟩ := by
    decide +kernel
  have hwritten : leavingUnit.rewritten ⟨"/"⟩ ⟨"/"⟩ ⟨"/"⟩ "./app/foo" = "./lib/bar" := by
    decide +kernel
  have hback := (hundoes.stays ⟨"/"⟩ "./app/foo" (by decide +kernel) (by decide +kernel)).text
    (by decide +kernel)
  refine ⟨hmoved, hundoes.relocate _ _ (by decide +kernel) hmoved, hwritten, ?_⟩
  rw [← hwritten]
  exact hback

end

end MovedUnit

end ModuleMove
