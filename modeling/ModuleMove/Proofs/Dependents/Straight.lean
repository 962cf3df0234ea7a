import ModuleMove.Proofs.Disk.Straight
import ModuleMove.Proofs.Plan.Prepared

/-!
# STRAIGHT FILES — scanned files are written by their names

The walk that finds the files of a project puts one name behind another.  If it begins at a straight
root, it finds files under straight paths.

Main statements:
  * `straight_of_mem_scanned` — the path of a scanned file is straight.
  * `Specifier.straight_resolve` — so is what its specifiers lead to.
-/

namespace ModuleMove

open ModuleMove.Path Discovery

/-! ## §1. The walk. -/

section

variable (w : Discovery.Walk)

mutual

theorem straight_filesOf (layers : List Ignore.Layer) (place : List String) (path : Path) (n : Node)
    (hn : n.WellFormed) {ns : List String} (hpath : path.Straight ns) :
    ∀ f ∈ filesOf w layers place path n, ∃ ms, f.Straight ms := by
  cases n with
  | file c =>
    intro f hf
    rw [filesOf, List.mem_singleton] at hf
    rw [hf]
    exact ⟨ns, hpath⟩
  | directory es =>
    rw [filesOf]
    rw [Node.WellFormed] at hn
    exact straight_filesIn _ place path es hn.2 hpath

theorem straight_filesIn (layers : List Ignore.Layer) (place : List String) (path : Path)
    (es : List (String × Node)) (hes : Node.AllWellFormed es) {ns : List String}
    (hpath : path.Straight ns) : ∀ f ∈ filesIn w layers place path es, ∃ ms, f.Straight ms := by
  cases es with
  | nil =>
    intro f hf
    rw [filesIn] at hf
    cases hf
  | cons e es =>
    obtain ⟨k, n⟩ := e
    rw [Node.AllWellFormed] at hes
    intro f hf
    rw [filesIn] at hf
    -- what is found in an entry stands behind the name of the entry
    rcases List.mem_append.1 hf with hf | hf
    · split at hf
      · cases hf
      · exact straight_filesOf layers (place ++ [k]) _ n hes.2.1 (hpath.join hes.1) f hf
    · exact straight_filesIn layers place path es hes.2.2 hpath f hf

end

end

/-! ## §2. What is found and scanned. -/

section

variable {d : Disk} {p : Project} {found : Discovery} {rs : List String}

theorem straight_of_discover (hd : d.WellFormed) (hroot : p.root.Straight rs)
    (h : discover d p = .ok found) : ∀ f ∈ found.files, ∃ ns, f.1.Straight ns := by
  obtain ⟨place, es, own, hl, -, hperm⟩ := discover_eq_ok h
  intro f hf
  obtain ⟨q, hq, hs⟩ := List.mem_filterMap.1 (hperm.mem_iff.1 hf)
  have hes := hd.tree.find? (Disk.find?_of_locate hl)
  rw [Node.WellFormed] at hes
  rw [fst_of_sourceOf? hs]
  exact straight_filesIn _ _ place p.root es hes.2 hroot q hq

/-- **The path of a scanned file is straight.** -/
theorem straight_of_mem_scanned {parse : Parser} {old new : Path} {x : Preparation}
    (hd : d.WellFormed) (hroot : p.root.Straight rs)
    (h : Preparation.make d p old new parse = .ok x) {f : ScannedFile}
    (hf : f ∈ x.index.scanned) : ∃ ns, f.path.Straight ns := by
  obtain ⟨-, found, hfound, g, hg, hpath⟩ := Preparation.scan_of_make h hf
  rw [← hpath]
  exact straight_of_discover hd hroot hfound g hg

/-! ## §3. What references lead to. -/

/-- The directory of a straight file. -/
theorem Project.straight_directoryOf (hroot : p.root.Straight rs) {q : Path} {ns : List String}
    (hq : q.Straight ns) : ∃ ds, (p.directoryOf q).Straight ds := by
  unfold Project.directoryOf
  rcases List.eq_nil_or_concat' ns with rfl | ⟨ns, s, rfl⟩
  · rw [hq.parent?_nil]
    exact ⟨rs, hroot⟩
  · obtain ⟨dir, hdir, hs⟩ := hq.exists_parent
    rw [hdir]
    exact ⟨ns, hs⟩

/-- **What a specifier leads to** from a straight directory is straight. -/
theorem Specifier.straight_resolve {dir root : Path} {ds : List String} (hdir : dir.Straight ds)
    (hroot : root.Straight rs) (specifier : String) :
    ∃ ts, (Specifier.resolve specifier dir root).Straight ts := by
  unfold Specifier.resolve
  split
  · exact straight_normalize (hroot.isAbsolute_join _)
  · exact straight_normalize (hdir.isAbsolute_join _)

end

end ModuleMove
