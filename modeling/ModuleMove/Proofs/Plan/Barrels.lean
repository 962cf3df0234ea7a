import ModuleMove.Proofs.Plan.Checked
import ModuleMove.Proofs.Plan.Consistent

/-!
# BARRELS STAY — no barrel of a parent directory travels by default

A directory takes along what lies in it.  The barrel of the directory that it leaves lies beside it,
and so does the barrel of the one that it enters, as a directory does not go into itself.  A file
takes along what has its name, and the file of a unit does not have the name of a barrel.

Main statements:
  * `Preparation.barrelsStay_of_default` — with the default names and extensions, the barrels of
    both parent directories stay.
-/

namespace ModuleMove

open ModuleMove.Path

/-- A project names its sources and barrels as projects do by default. -/
structure Project.NamesDefault (p : Project) : Prop where
  /-- The extensions of source files. -/
  extensions : p.config.extensions = Config.default.extensions
  /-- The names of barrels. -/
  barrelNames : p.config.barrelNames = Config.default.barrelNames

theorem findBarrel_eq_some {d : Disk} {p : Project} {dir b : Path}
    (h : findBarrel d p dir = some b) : ∃ name ∈ p.config.barrelNames, ∃ ext ∈ p.extensions,
      b = dir.join ⟨name ++ "." ++ ext⟩ ∧ d.hasFile b = true := by
  unfold findBarrel at h
  obtain ⟨name, hname, h⟩ := List.exists_of_findSome?_eq_some h
  obtain ⟨ext, hext, rfl⟩ := List.mem_map.1 (List.mem_of_find?_eq_some h)
  exact ⟨name, hname, ext, hext, rfl, List.find?_some h⟩

/-- A file and a directory are two places. -/
theorem Disk.not_same_of_hasDirectory {d : Disk} {p q : Path} (hp : d.hasDirectory p = true)
    (hq : d.hasFile q = true) : p.same q = false := by
  rw [Bool.eq_false_iff]
  intro hs
  obtain ⟨pl, es, hp⟩ := Disk.hasDirectory_iff.1 hp
  obtain ⟨ql, c, hq⟩ := Disk.hasFile_iff.1 hq
  have := Disk.locate_congr hs hp hq
  cases this

theorem mem_extensions_of_language {ext : String} (h : (Language.ofExtension? ext).isSome = true) :
    ext ∈ Config.default.extensions := by
  unfold Language.ofExtension? at h
  split at h <;> first | decide | cases h

namespace Preparation

section

variable {d : Disk} {p : Project} {old new old' new' b t m : Path} {δ : Delta}

/-! ## §1. Files. -/

/-- The file of a unit does not have the name of a barrel. -/
theorem name_ne_barrel (hp : p.NamesDefault) (h : check d p old new = .ok (old', new', δ))
    (hs : (MovedUnit.make d p old' new' δ).style = .file) :
    (MovedUnit.make d p old' new' δ).name ∉ p.config.barrelNames := by
  intro hmem
  obtain ⟨stem, ext, hname, hstem, hl, hb⟩ := exists_extension h hs
  have hext : ext ∈ p.extensions := by
    unfold Project.extensions
    rw [hp.extensions]
    exact mem_extensions_of_language hl
  have heq : (MovedUnit.make d p old' new' δ).name
      = stripSourceExtension (stem ++ ("." ++ ext)) p.extensions := by
    show MovedUnit.nameOf (MovedUnit.make d p old' new' δ).style p.extensions old' = _
    unfold MovedUnit.nameOf
    rw [hs, hname]
    rfl
  -- something has been stripped, so that the rest is what barrels are known by
  have hstem? : p.sourceStem? old'
      = some (stripSourceExtension (stem ++ ("." ++ ext)) p.extensions) := by
    unfold Project.sourceStem?
    rw [hname]
    exact if_pos (length_stripSourceExtension hstem hext)
  unfold Project.isBarrel at hb
  rw [hstem?] at hb
  rw [heq] at hmem
  have hb : p.config.barrelNames.contains
      (stripSourceExtension (stem ++ ("." ++ ext)) p.extensions) = false := hb
  rw [List.contains_iff_mem.2 hmem] at hb
  cases hb

theorem stripped_barrel : ∀ ext ∈ Config.default.extensions,
    IsName ("index" ++ "." ++ ext) ∧
      stripSourceExtension ("index" ++ "." ++ ext) Config.default.extensions = "index" := by
  decide

/-- A file does not take a barrel along. -/
theorem stays_of_file (hp : p.NamesDefault) (h : check d p old new = .ok (old', new', δ))
    (hs : (MovedUnit.make d p old' new' δ).style = .file) {dir : Path}
    (hb : findBarrel d p dir = some b)
    (ht : (MovedUnit.make d p old' new' δ).relocate t = some m) : t.same b = false := by
  obtain ⟨name, hname, ext, hext, rfl, -⟩ := findBarrel_eq_some hb
  have hno := name_ne_barrel hp h hs
  unfold Project.extensions at hext
  rw [hp.extensions] at hext
  rw [hp.barrelNames] at hname hno
  obtain rfl : name = "index" := List.mem_singleton.1 hname
  obtain ⟨hfile, hstrip⟩ := stripped_barrel ext hext
  rw [Bool.eq_false_iff]
  intro hsame
  obtain ⟨f, g, -, hcomp, hg, -⟩ := MovedUnit.relocate_of_file hs ht
  rw [same_iff, components_join_name _ hfile, hcomp] at hsame
  have hf := (List.cons.inj (List.append_inj' hsame rfl).2).1
  obtain rfl := Component.name.inj hf
  obtain ⟨rest, hstem, hrest, -⟩ := MovedUnit.renamed?_eq_some hg
  have hexts : (MovedUnit.make d p old' new' δ).extensions = Config.default.extensions :=
    hp.extensions
  rw [hexts, hstrip] at hstem
  -- nothing follows the name, so it would be the name of a barrel
  have hnil : rest = "" := by
    refine hrest.resolve_right fun hend => ?_
    unfold MovedUnit.isCompanionEnd at hend
    split at hend
    · rename_i s hrest
      rw [afterStart?_eq_some] at hrest
      have hdot : '.' ∈ "index".toList := by
        rw [hstem, hrest]
        simp
      revert hdot
      decide
    · cases hend
  rw [hnil, String.append_empty] at hstem
  rw [← hstem] at hno
  exact hno (by decide)

/-! ## §2. Directories. -/

/-- The path of a directory lies below the root, by names, if something does that it takes
    along. -/
theorem goesOn_of_directory (hroot : Normal p.root.components)
    (hδ : Delta.compute old' new' p.root = .ok δ)
    (hs : (MovedUnit.make d p old' new' δ).style = .directory) {ns : List String}
    (hns : p.root.GoesOn t ns) (ht : (MovedUnit.make d p old' new' δ).relocate t = some m) :
    ∃ os, p.root.GoesOn old' os := by
  obtain ⟨cs, hcomp, -⟩ := MovedUnit.relocate_of_directory hs ht
  have hcomp : t.components = old'.components ++ cs := hcomp
  obtain ⟨xs, ys, -, a, -, ho, -⟩ := Delta.compute_eq_ok hδ
  have hon : Normal old'.components := by
    have := hns.normal_of_normal hroot
    rw [hcomp] at this
    exact this.of_append
  rw [components_normalize, normalComponents_of_normal hon, components_normalize,
    normalComponents_of_normal hroot] at ho
  -- the unit is named by the first names of what it takes along
  have heq := hns.2
  rw [hcomp, ho, List.append_assoc] at heq
  have heq := List.append_cancel_left heq
  have htake : xs ++ ys ++ [a] = (ns.take (xs ++ ys ++ [a]).length).map Component.name := by
    rw [List.map_take, ← heq, List.take_left]
  exact ⟨_, fun s hs => hns.1 s (List.mem_of_mem_take hs), by rw [ho, ← htake]⟩

/-- A directory does not take along what lies beside it or beside its new place. -/
theorem stays_of_directory (hroot : Normal p.root.components)
    (h : check d p old new = .ok (old', new', δ))
    (hs : (MovedUnit.make d p old' new' δ).style = .directory) {file : String} {dir : Path}
    (hfile : IsName file)
    (hdir : dir = (MovedUnit.make d p old' new' δ).oldParent ∨
      dir = (MovedUnit.make d p old' new' δ).newParent)
    (hb : d.hasFile (dir.join ⟨file⟩) = true) {ns : List String} (hns : p.root.GoesOn t ns)
    (ht : (MovedUnit.make d p old' new' δ).relocate t = some m) :
    t.same (dir.join ⟨file⟩) = false := by
  obtain ⟨added, hl, hnew, hδ, -⟩ := check_eq_ok h
  have hd := hasDirectory_of_style hs
  have hunder := not_isUnder_of_directory h hs
  have hnormal : Normal new'.components := by
    rcases locateUnit_eq_ok hl with ⟨rfl, -⟩ | ⟨ext, -, -, hf⟩
    · rw [hnew]
      exact p.normal_absolute new
    · have := Disk.not_same_of_hasDirectory hd hf
      rw [same_refl] at this
      cases this
  rw [Bool.eq_false_iff]
  intro hsame
  -- the unit is named from the root, like what it takes along
  obtain ⟨cs, hcomp, -⟩ := MovedUnit.relocate_of_directory hs ht
  have hcomp : t.components = old'.components ++ cs := hcomp
  obtain ⟨os, hos⟩ := goesOn_of_directory hroot hδ hs hns ht
  obtain ⟨as, a, bs, c, rfl, hleave, hn, henter⟩ := MovedUnit.components_newParent hroot hδ hos
  rw [components_normalize, normalComponents_of_normal hnormal] at hn
  have hother := Disk.not_same_of_hasDirectory hd hb
  rw [Bool.eq_false_iff, Ne, same_iff, components_join_name _ hfile] at hother
  rw [same_iff, components_join_name _ hfile, hcomp] at hsame
  -- so what is taken along lies in the unit, not at its place
  rcases List.eq_nil_or_concat' cs with rfl | ⟨cs, y, rfl⟩
  · rw [List.append_nil] at hsame
    exact hother hsame
  rw [← List.append_assoc] at hsame
  have hin := (List.append_inj' hsame rfl).1
  rcases hdir with rfl | rfl
  · have hin : old'.components ++ cs = (old'.parent?.getD p.root).components := hin
    rw [hleave, hos.2] at hin
    have := congrArg List.length hin
    simp at this
  · have hin : old'.components ++ cs = (δ.applyTo (old'.parent?.getD p.root)).components := hin
    rw [henter] at hin
    have hpre : old'.components <+: new'.components := by
      rw [hn, ← List.append_assoc, ← hin, List.append_assoc]
      exact List.prefix_append _ _
    unfold isUnder at hunder
    rw [List.isPrefixOf_iff_prefix.2 hpre] at hunder
    cases hunder

end

/-! ## §3. Both. -/

/-- **By default, the barrels of both parent directories stay.** -/
theorem barrelsStay_of_default {d : Disk} {p : Project} {old new : Path} {x : Preparation}
    (hd : d.WellFormed) (hroot : Normal p.root.components) (hp : p.NamesDefault)
    (h : make d p old new = .ok x) : x.BarrelsStay := by
  have hx := sound_of_make hd h
  obtain ⟨old', new', δ, hc, hu, -, rfl, rfl, -⟩ := make_eq_ok h
  intro b hb t ht
  have htravels := hx.index.travels t ht
  unfold MovedUnit.travels at htravels
  obtain ⟨m, hm⟩ := Option.isSome_iff_exists.1 htravels
  rw [hu] at hm hb
  cases hs : (MovedUnit.make x.disk x.project old' new' δ).style with
  | file => exact hb.elim (stays_of_file hp hc hs · hm) (stays_of_file hp hc hs · hm)
  | directory =>
    obtain ⟨ns, hns, -⟩ := hx.index.descends t ht
    have hboth : ∀ dir, (dir = (MovedUnit.make x.disk x.project old' new' δ).oldParent ∨
        dir = (MovedUnit.make x.disk x.project old' new' δ).newParent) →
        findBarrel x.disk x.project dir = some b → t.same b = false := by
      intro dir hdir hfind
      obtain ⟨name, hname, ext, hext, rfl, hfile⟩ := findBarrel_eq_some hfind
      unfold Project.extensions at hext
      rw [hp.extensions] at hext
      rw [hp.barrelNames] at hname
      obtain rfl : name = "index" := List.mem_singleton.1 hname
      exact stays_of_directory hroot hc hs (stripped_barrel ext hext).1 hdir hfile hns hm
    exact hb.elim (hboth _ (.inl rfl)) (hboth _ (.inr rfl))

end Preparation

end ModuleMove
