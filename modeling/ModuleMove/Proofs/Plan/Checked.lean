import ModuleMove.Proofs.Dependents.Index
import ModuleMove.Proofs.Plan.SpecifierEdit
import ModuleMove.Proofs.Unit.Relocate
import ModuleMove.Plan.Basic

/-!
# CHECKED MOVES — what is known of a unit that may be moved

A move that passes its checks has paths without detours, except that an extension may stand behind
them.  Its unit has a name and gets one.

Main statements:
  * `Preparation.check_eq_ok` — what has been checked.
  * `Preparation.isName_newName` — a unit of an absolute project gets a name.
-/

namespace ModuleMove

open ModuleMove.Path

/-! ## §1. Names at the end of texts. -/

namespace Path

/-- A path whose last piece is a name ends with that name. -/
theorem fileName?_of_cutText {p : Path} {as : List String} {z : String}
    (h : cutText '/' p.text = as ++ [z]) (hz : IsName z) : p.fileName? = some z := by
  rw [fileName?_eq_some_iff]
  unfold components
  rw [h]
  have hone : [z].filterMap componentOf? = [.name z] :=
    List.filterMap_cons_some (componentOf?_name hz)
  cases as with
  | nil =>
    rw [List.nil_append, componentsOf_cons (.inl hz.1)]
    refine ⟨[], ?_⟩
    unfold opening
    split
    · exact absurd rfl hz.1
    · exact absurd rfl hz.2.1
    · rw [componentOf?_name hz]
      rfl
  | cons a as =>
    rw [List.cons_append, componentsOf_cons (.inr (by simp)), List.filterMap_append, hone,
      ← List.append_assoc]
    exact ⟨_, rfl⟩

/-- What follows a text is put behind its last piece. -/
theorem cutText_append {s t : String} {as bs : List String} {a b : String}
    (hs : cutText '/' s = as ++ [a]) (ht : cutText '/' t = b :: bs) :
    cutText '/' (s ++ t) = as ++ (a ++ b) :: bs := by
  have hslash : ∀ p ∈ as ++ [a], '/' ∉ p.toList := by
    rw [← hs]
    exact fun p => not_mem_of_mem_cutText
  -- the last piece of the one and the first piece of the other become one
  have htext : s ++ t = withSlashes as ++ joinText '/' ((a ++ b) :: bs) := by
    have hjoin : joinText '/' ((a ++ b) :: bs) = a ++ joinText '/' (b :: bs) := by
      cases bs with
      | nil => rw [joinText_singleton, joinText_singleton]
      | cons c bs =>
        rw [joinText_cons (a ++ b) (by simp), joinText_cons b (by simp)]
        simp only [String.append_assoc]
    rw [← joinText_cutText '/' s, hs, joinText_append as (by simp), joinText_singleton,
      ← joinText_cutText '/' t, ht, hjoin, String.append_assoc]
  rw [htext, cutText_withSlashes fun p hp => hslash p (List.mem_append_left _ hp),
    cutText_joinText (by simp)]
  intro p hp
  rcases List.mem_cons.1 hp with rfl | hp
  · rw [String.toList_append, List.mem_append]
    refine fun h => h.elim (hslash a (by simp)) ?_
    exact not_mem_of_mem_cutText (s := t) (by rw [ht]; exact List.mem_cons_self ..)
  · exact not_mem_of_mem_cutText (s := t) (by rw [ht]; exact List.mem_cons_of_mem _ hp)

/-- An absolute path without detours is written by its names. -/
theorem cutText_ofComponents {ns : List String} (h : ∀ s ∈ ns, IsName s) :
    cutText '/' (ofComponents (.root :: ns.map Component.name)).text
      = "" :: if ns = [] then [""] else ns := by
  show cutText '/' ("/" ++ joinText '/' (textsOf (ns.map Component.name))) = _
  rw [textsOf_map_name]
  exact Specifier.cutText_names h

end Path

/-- The last step to a file is a name. -/
theorem Disk.cutText_of_hasFile {d : Disk} (hd : d.WellFormed) {p : Path} (h : d.hasFile p = true) :
    ∃ as z, cutText '/' p.text = as ++ [z] ∧ IsName z := by
  obtain ⟨pl, c, hl⟩ := Disk.hasFile_iff.1 h
  obtain ⟨ss, s, hss, h0, h1, h2⟩ := Disk.last_step hd hl
  obtain ⟨as, has⟩ : ∃ as, cutText '/' p.text = as ++ [s] := by
    cases hc : cutText '/' p.text with
    | nil => exact absurd hc (cutText_ne_nil _ _)
    | cons t ps =>
      rw [Disk.stepsOf_of_cut hc] at hss
      split at hss
      · exact ⟨t :: ss, by rw [hss]; rfl⟩
      · exact ⟨ss, hss⟩
  refine ⟨as, s, has, h0, h1, h2, ?_⟩
  exact not_mem_of_mem_cutText (s := p.text) (by rw [has]; simp)

/-! ## §2. Paths of a project. -/

namespace Project

theorem exists_absolute (p : Project) (q : Path) : ∃ r, p.absolute q = Path.normalize r := by
  unfold absolute
  split
  · exact ⟨_, rfl⟩
  · exact ⟨_, rfl⟩

theorem root_ofRoot (root : Path) (c : Config) : (ofRoot root c).root = root.normalize := rfl

theorem normal_root_ofRoot (root : Path) (c : Config) : Normal (ofRoot root c).root.components := by
  rw [root_ofRoot]
  exact normal_components_normalize root

theorem normal_absolute (p : Project) (q : Path) : Normal (p.absolute q).components := by
  obtain ⟨r, hr⟩ := p.exists_absolute q
  rw [hr]
  exact normal_components_normalize r

/-- In an absolute project, paths are written by their names. -/
theorem exists_names_absolute {p : Project} {rs : List String} (hroot : top.GoesOn p.root rs)
    (q : Path) : ∃ ns, top.GoesOn (p.absolute q) ns ∧
      cutText '/' (p.absolute q).text = "" :: if ns = [] then [""] else ns := by
  have habs : ∃ r, p.absolute q = Path.normalize r ∧ r.isAbsolute = true := by
    unfold absolute
    split
    · exact ⟨q, rfl, ‹_›⟩
    · rename_i hq
      refine ⟨p.root.join q, rfl, ?_⟩
      rw [isAbsolute_iff_components,
        components_join hroot.text_ne_empty (Bool.eq_false_iff.2 hq), hroot.2]
      exact ⟨_, rfl⟩
  obtain ⟨r, hr, har⟩ := habs
  obtain ⟨ns, hns⟩ := goesOn_normalize har
  rw [hr]
  refine ⟨ns, hns, ?_⟩
  have hcs : normalComponents r.components = .root :: ns.map Component.name := by
    rw [← components_normalize, hns.2]
    rfl
  unfold Path.normalize
  rw [hcs]
  exact cutText_ofComponents hns.1

end Project

/-! ## §3. Checks. -/

namespace Preparation

section

variable {d : Disk} {p : Project} {old new old' new' : Path} {δ : Delta} {added : Option String}

theorem locateUnit_eq_ok (h : locateUnit d p old = .ok (old', added)) :
    (added = none ∧ old' = p.absolute old) ∨
      ∃ ext, added = some ext ∧ old' = (p.absolute old).withExtension ext ∧
        d.hasFile old' = true := by
  unfold locateUnit at h
  simp only at h
  split at h
  · cases h
    exact .inl ⟨rfl, rfl⟩
  · split at h
    · rename_i ext hf
      cases h
      have hfile := List.find?_some hf
      exact .inr ⟨ext, rfl, rfl, hfile⟩
    · cases h

/-- **What has been checked** when a move may be made. -/
theorem check_eq_ok (h : check d p old new = .ok (old', new', δ)) : ∃ added,
    locateUnit d p old = .ok (old', added) ∧ new' = completed p (p.absolute new) added ∧
      Delta.compute old' new' p.root = .ok δ ∧ kindRefusal? d p old' new' = none := by
  unfold check at h
  obtain ⟨⟨o, added⟩, hl, h⟩ := exists_of_bind_eq_ok h
  obtain ⟨δ', hc, h⟩ := exists_of_bind_eq_ok h
  split at h
  · cases h
  · rename_i hk
    split at h
    · cases h
    · obtain ⟨rfl, heq⟩ := Prod.mk.inj (Except.ok.inj h)
      obtain ⟨rfl, rfl⟩ := Prod.mk.inj heq
      exact ⟨added, hl, rfl, hc, hk⟩

theorem kindRefusal?_eq_none (h : kindRefusal? d p old new = none) :
    (d.hasDirectory old = true ∧ new.isUnder old = false) ∨
      (d.hasDirectory old = false ∧ (Scan.languageOf? old).isSome = true ∧
        p.isBarrel old = false) := by
  unfold kindRefusal? at h
  cases hd : d.hasDirectory old with
  | true =>
    rw [hd, if_pos rfl] at h
    split at h
    · cases h
    · exact .inl ⟨rfl, Bool.eq_false_iff.2 ‹_›⟩
  | false =>
    rw [hd, if_neg (by decide)] at h
    split at h
    · cases h
    · rename_i hl
      split at h
      · cases h
      · rename_i hb
        refine .inr ⟨rfl, ?_, Bool.eq_false_iff.2 hb⟩
        rw [Option.isNone_iff_eq_none] at hl
        exact Option.isSome_iff_ne_none.2 hl

/-! ## §4. The names of the unit. -/

theorem style_make (d : Disk) (p : Project) (old new : Path) (δ : Delta) :
    (MovedUnit.make d p old new δ).style = if d.hasDirectory old then .directory else .file := rfl

/-- What is moved as a directory is one. -/
theorem hasDirectory_of_style (h : (MovedUnit.make d p old new δ).style = .directory) :
    d.hasDirectory old = true := by
  by_contra hno
  rw [style_make, if_neg hno] at h
  cases h

/-- A directory is not moved into itself. -/
theorem not_isUnder_of_directory (h : check d p old new = .ok (old', new', δ))
    (hs : (MovedUnit.make d p old' new' δ).style = .directory) : new'.isUnder old' = false := by
  obtain ⟨-, -, -, -, hk⟩ := check_eq_ok h
  rcases kindRefusal?_eq_none hk with ⟨-, hunder⟩ | ⟨hno, -⟩
  · exact hunder
  · rw [hasDirectory_of_style hs] at hno
    cases hno

/-- A file that may be moved has a name with an extension. -/
theorem exists_extension (h : check d p old new = .ok (old', new', δ))
    (hs : (MovedUnit.make d p old' new' δ).style = .file) :
    ∃ stem ext, old'.fileName? = some (stem ++ ("." ++ ext)) ∧ stem ≠ "" ∧
      (Language.ofExtension? ext).isSome = true ∧ p.isBarrel old' = false := by
  obtain ⟨added, -, -, -, hk⟩ := check_eq_ok h
  rcases kindRefusal?_eq_none hk with ⟨hd, -⟩ | ⟨-, hl, hb⟩
  · rw [style_make, if_pos hd] at hs
    cases hs
  · unfold Scan.languageOf? extension? at hl
    rw [Option.isSome_iff_exists] at hl
    obtain ⟨l, hl⟩ := hl
    simp only [Option.bind_eq_bind, Option.bind_eq_some_iff] at hl
    obtain ⟨ext, ⟨name, hname, hext⟩, hl⟩ := hl
    -- an extension is read behind the last dot of the name
    split at hext
    · rename_i before after hlast
      split at hext
      · cases hext
      · rename_i hne
        cases hext
        refine ⟨before, ext, ?_, by simpa using hne, by rw [hl]; rfl, hb⟩
        rw [hname, lastPiece_eq_some hlast, String.append_assoc]
    · cases hext

theorem fileName?_of_goesOn {base q : Path} {ns : List String} {s : String}
    (h : base.GoesOn q (ns ++ [s])) : q.fileName? = some s := by
  rw [fileName?_eq_some_iff, h.2, List.map_append, List.map_singleton, ← List.append_assoc]
  exact ⟨_, rfl⟩

/-- A destination without detours has a name. -/
theorem exists_fileName_of_goesOn {q root : Path} {rs ns : List String}
    (hroot : top.GoesOn root rs) (hq : top.GoesOn q ns)
    (hδ : Delta.compute old q root = .ok δ) : ∃ s, q.fileName? = some s := by
  obtain ⟨cs, -, ys, -, b, -, hn, -⟩ := Delta.compute_eq_ok hδ
  rw [components_normalize, normalComponents_of_normal hq.normal, components_normalize,
    normalComponents_of_normal hroot.normal] at hn
  obtain ⟨ms, hms, hgo⟩ := GoesOn.of_append hroot hq hn
  rcases List.eq_nil_or_concat' ms with rfl | ⟨ms, s, rfl⟩
  · simp at hms
  · exact ⟨s, fileName?_of_goesOn hgo⟩

/-- An extension that is put behind a path goes to the last piece; behind slashes in it, there are
    pieces of its own. -/
theorem exists_cutText_withExtension (ext : String) :
    ∃ e es, cutText '/' ("." ++ ext) = ("." ++ e) :: es ∧
      ∀ (q : Path) (as : List String) (b : String), cutText '/' q.text = as ++ [b] →
        cutText '/' (q.withExtension ext).text = as ++ (b ++ ("." ++ e)) :: es := by
  obtain ⟨e, es, hc⟩ := List.exists_cons_of_ne_nil (cutText_ne_nil '/' ext)
  have hdot : cutText '/' "." = [] ++ ["."] := rfl
  have he : cutText '/' ("." ++ ext) = ("." ++ e) :: es := cutText_append hdot hc
  refine ⟨e, es, he, fun q as b hq => ?_⟩
  show cutText '/' (q.text ++ "." ++ ext) = _
  rw [String.append_assoc]
  exact cutText_append hq he

/-- A destination of one piece at the top of the tree has a name, as it is not the top. -/
theorem isName_of_top {q root : Path} {rs : List String} {s : String}
    (hroot : top.GoesOn root rs) (hq : cutText '/' q.text = ["", s]) (hs : s ≠ "")
    (hδ : Delta.compute old' q root = .ok δ) : IsName s := by
  have hslash : '/' ∉ s.toList := not_mem_of_mem_cutText (s := q.text) (by rw [hq]; simp)
  by_contra hno
  have htop : normalComponents q.components = [.root] := by
    have hor : s = "." ∨ s = ".." := by
      unfold IsName at hno
      simp only [not_and_or, not_not] at hno
      rcases hno with h | h | h | h
      · exact absurd h hs
      · exact .inl h
      · exact .inr h
      · exact absurd h hslash
    unfold components
    rw [hq]
    rcases hor with h | h <;> rw [h] <;> rfl
  obtain ⟨cs, -, ys, -, b, -, hn, -⟩ := Delta.compute_eq_ok hδ
  rw [components_normalize, htop, components_normalize,
    normalComponents_of_normal hroot.normal, hroot.2] at hn
  have := congrArg List.length hn
  simp [components_top] at this

/-- A destination ends with a name after the extension of the file is put behind it. -/
theorem exists_fileName_withExtension {q root : Path} {rs ns os : List String} {ext : String}
    (hd : d.WellFormed) (hroot : top.GoesOn root rs)
    (hq : cutText '/' q.text = "" :: if ns = [] then [""] else ns) (hns : ∀ s ∈ ns, IsName s)
    (ho : cutText '/' old.text = "" :: os) (hos : os ≠ [])
    (hfile : d.hasFile (old.withExtension ext) = true)
    (hδ : Delta.compute old' (q.withExtension ext) root = .ok δ) :
    ∃ s, (q.withExtension ext).fileName? = some s := by
  obtain ⟨e, es, he, hcut⟩ := exists_cutText_withExtension ext
  rcases List.eq_nil_or_concat' es with rfl | ⟨es, z, rfl⟩
  · -- the extension has no slash and is put behind the name
    rcases List.eq_nil_or_concat' ns with rfl | ⟨ns, n, rfl⟩
    · have hq' := hcut q [""] "" hq
      exact ⟨_, fileName?_of_cutText hq' (isName_of_top hroot hq' (by simp) hδ)⟩
    · have hq' := hcut q ("" :: ns) n (by rw [hq, if_neg (by simp)]; rfl)
      refine ⟨_, fileName?_of_cutText hq' (isName_append (hns n (by simp)) ?_)⟩
      exact not_mem_of_mem_cutText (s := "." ++ ext) (by rw [he]; exact List.mem_cons_self ..)
  · -- the extension ends in a name, because the file does
    obtain ⟨os, o, rfl⟩ := (List.eq_nil_or_concat' os).resolve_left hos
    have ho' := hcut old ("" :: os) o ho
    obtain ⟨as, y, hy, hname⟩ := Disk.cutText_of_hasFile hd hfile
    have hzy : z = y := by
      rw [ho', ← List.cons_append, ← List.append_assoc] at hy
      exact (List.cons.inj (List.append_inj' hy rfl).2).1
    obtain ⟨bs, b, hb⟩ :=
      (List.eq_nil_or_concat' (cutText '/' q.text)).resolve_left (cutText_ne_nil _ _)
    have hq' := hcut q bs b hb
    rw [← List.cons_append, ← List.append_assoc] at hq'
    exact ⟨_, fileName?_of_cutText hq' (by rw [hzy]; exact hname)⟩

/-- A destination that has been checked ends with a name. -/
theorem exists_fileName_of_check {rs : List String} (hd : d.WellFormed)
    (hroot : top.GoesOn p.root rs) (h : check d p old new = .ok (old', new', δ)) :
    ∃ s, new'.fileName? = some s := by
  obtain ⟨added, hl, hnew, hδ, -⟩ := check_eq_ok h
  obtain ⟨ns, hns, hcut⟩ := p.exists_names_absolute hroot new
  rcases locateUnit_eq_ok hl with ⟨rfl, rfl⟩ | ⟨ext, rfl, rfl, hfile⟩
  · rw [hnew] at hδ ⊢
    exact exists_fileName_of_goesOn hroot hns hδ
  · unfold completed at hnew
    simp only at hnew
    split at hnew
    · obtain ⟨os, -, hocut⟩ := p.exists_names_absolute hroot old
      rw [hnew] at hδ ⊢
      refine exists_fileName_withExtension hd hroot hcut hns.1 hocut ?_ hfile hδ
      split
      · simp
      · assumption
    · rw [hnew] at hδ ⊢
      exact exists_fileName_of_goesOn hroot hns hδ

/-- What a unit is called is not empty, and it has no slash in it. -/
theorem text_nameOf (style : UnitStyle) (extensions : List String) {q : Path} {s : String}
    (hs : q.fileName? = some s) : MovedUnit.nameOf style extensions q ≠ "" ∧
      '/' ∉ (MovedUnit.nameOf style extensions q).toList := by
  have hname := isName_of_fileName? hs
  unfold MovedUnit.nameOf
  rw [hs, Option.getD_some]
  cases style with
  | directory => exact ⟨hname.1, hname.2.2.2⟩
  | file =>
    -- what is left of the name is a beginning of it, and not an empty one
    obtain ⟨rest, hrest, hor⟩ := exists_stripSourceExtension s extensions
    refine ⟨?_, fun hslash => hname.2.2.2 ?_⟩
    · rcases hor with rfl | ⟨hne, -⟩
      · intro h0
        have h0 : stripSourceExtension s extensions = "" := h0
        rw [h0] at hrest
        exact hname.1 hrest
      · exact hne
    · rw [hrest, String.toList_append]
      exact List.mem_append_left _ hslash

/-- The new name of a directory is the name at the end of the destination. -/
theorem isName_newName_of_directory {rs : List String} (hd : d.WellFormed)
    (hroot : top.GoesOn p.root rs) (h : check d p old new = .ok (old', new', δ))
    (hs : (MovedUnit.make d p old' new' δ).style = .directory) :
    IsName (MovedUnit.make d p old' new' δ).newName := by
  obtain ⟨s, hname⟩ := exists_fileName_of_check hd hroot h
  have heq : (MovedUnit.make d p old' new' δ).newName
      = MovedUnit.nameOf (MovedUnit.make d p old' new' δ).style p.extensions new' := rfl
  rw [heq, hs]
  unfold MovedUnit.nameOf
  rw [hname]
  exact isName_of_fileName? hname

/-- The new name of a unit of an absolute project is not empty, and it has no slash in it. -/
theorem text_newName {rs : List String} (hd : d.WellFormed) (hroot : top.GoesOn p.root rs)
    (h : check d p old new = .ok (old', new', δ)) :
    (MovedUnit.make d p old' new' δ).newName ≠ "" ∧
      '/' ∉ (MovedUnit.make d p old' new' δ).newName.toList := by
  obtain ⟨s, hs⟩ := exists_fileName_of_check hd hroot h
  exact text_nameOf _ _ hs

/-- **A unit of an absolute project gets a name**, unless only dots are left of it. -/
theorem isName_newName {rs : List String} (hd : d.WellFormed) (hroot : top.GoesOn p.root rs)
    (h : check d p old new = .ok (old', new', δ))
    (h1 : (MovedUnit.make d p old' new' δ).newName ≠ ".")
    (h2 : (MovedUnit.make d p old' new' δ).newName ≠ "..") :
    IsName (MovedUnit.make d p old' new' δ).newName := by
  obtain ⟨h0, hslash⟩ := text_newName hd hroot h
  exact ⟨h0, h1, h2, hslash⟩

end

end Preparation

end ModuleMove
