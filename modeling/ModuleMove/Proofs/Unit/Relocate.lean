import ModuleMove.Proofs.Specifier
import ModuleMove.Unit.Basic

/-!
# RELOCATED PLACES — where a unit is, where it goes, and what it takes along

A unit is a place in the project and goes to a place in the project.  A place that it takes along
is in the project too, and so is the place that it is taken to; neither is the root.

Main statements:
  * `MovedUnit.components_newParent` — the directory that a unit enters.
  * `MovedUnit.goesOn_relocate` — what is taken along, and where it is taken to.
-/

namespace ModuleMove

open ModuleMove.Path

/-! ## §1. Names. -/

namespace Path

/-- A name with something behind it is a name. -/
theorem isName_append {s t : String} (hs : IsName s) (ht : '/' ∉ t.toList) : IsName (s ++ t) := by
  have hchars : ∀ cs, s.toList ≠ cs ↔ s ≠ String.ofList cs := by
    intro cs
    rw [Ne, Ne, ← String.toList_inj, String.toList_ofList]
  have h0 := (hchars []).2 hs.1
  have h1 := (hchars ['.']).2 hs.2.1
  have h2 := (hchars ['.', '.']).2 hs.2.2.1
  refine ⟨?_, ?_, ?_, ?_⟩
  · intro h
    have h := congrArg String.toList h
    rw [String.toList_append] at h
    exact h0 (List.append_eq_nil_iff.1 h).1
  · intro h
    have h := congrArg String.toList h
    rw [String.toList_append] at h
    rcases List.append_eq_singleton_iff.1 h with ⟨h, -⟩ | ⟨h, -⟩
    · exact h0 h
    · exact h1 h
  · intro h
    have h : s.toList ++ t.toList = ['.', '.'] := by
      rw [← String.toList_append, h]
      rfl
    rcases List.append_eq_cons_iff.1 h with ⟨h, -⟩ | ⟨r, hr, h⟩
    · exact h0 h
    · rcases List.append_eq_singleton_iff.1 h.symm with ⟨rfl, -⟩ | ⟨rfl, -⟩
      · exact h1 hr
      · exact h2 hr
  · rw [String.toList_append, List.mem_append]
    exact fun h => h.elim hs.2.2.2 ht

/-- Names that go on from a path without detours make no detours. -/
theorem GoesOn.normal_of_normal {base p : Path} {ns : List String} (h : base.GoesOn p ns)
    (hb : Normal base.components) : Normal p.components := by
  obtain ⟨a, ms, hms, hnames, ha⟩ := hb
  refine ⟨a, ms ++ ns, ?_, ?_, ha⟩
  · rw [h.2, hms, List.map_append, List.append_assoc]
  · exact fun s hs => (List.mem_append.1 hs).elim (hnames s) (h.1 s)

/-- What lies below an absolute path without detours is named from it. -/
theorem GoesOn.of_append {base p : Path} {rs ns : List String} {cs : List Component}
    (hb : top.GoesOn base rs) (hp : top.GoesOn p ns) (h : p.components = base.components ++ cs) :
    ∃ ms, cs = ms.map Component.name ∧ base.GoesOn p ms := by
  have hpre : rs <+: ns := by
    apply prefix_of_map_name
    rw [← List.prefix_append_right_inj top.components, ← hb.2, ← hp.2, h]
    exact List.prefix_append _ _
  obtain ⟨ms, rfl⟩ := hpre
  have hcs : cs = ms.map Component.name := by
    have heq := h
    rw [hp.2, hb.2, List.map_append, List.append_assoc] at heq
    exact (List.append_cancel_left (List.append_cancel_left heq)).symm
  exact ⟨ms, hcs, fun s hs => hp.1 s (List.mem_append_right _ hs), by rw [h, hcs]⟩

/-- An absolute path without detours goes on from the root by names. -/
theorem Normal.goesOn {p : Path} {cs : List Component} (h : Normal p.components)
    (hp : p.components = .root :: cs) : ∃ ns, top.GoesOn p ns := by
  obtain ⟨a, ns, heq, hns, rfl | ⟨k, rfl⟩⟩ := h
  · exact ⟨ns, hns, heq⟩
  · -- steps up and names do not begin with the root
    exfalso
    have hmem : Component.root ∈ List.replicate k Component.up ++ ns.map Component.name := by
      rw [← heq, hp]
      exact List.mem_cons_self ..
    rcases List.mem_append.1 hmem with h | h
    · cases List.eq_of_mem_replicate h
    · simp at h

end Path

namespace MovedUnit

/-! ## §2. What is taken along. -/

/-- Where what a path names is after the move, whether it is taken along or not. -/
def led (u : MovedUnit) (t : Path) : Path := (u.relocate t).getD t

section

variable {u : MovedUnit} {p m : Path}

theorem renamed?_eq_some {f stem t : String} (h : u.renamed? f stem = some t) :
    ∃ rest, stem = u.name ++ rest ∧ (rest = "" ∨ u.isCompanionEnd rest = true) ∧
      t = u.newName ++ String.ofList (f.toList.drop u.name.length) := by
  unfold renamed? at h
  split at h
  · rename_i rest hrest
    split at h
    · rename_i hor
      cases h
      refine ⟨rest, afterStart?_eq_some.1 hrest, ?_, rfl⟩
      simpa using hor
    · cases h
  · cases h

/-- A file that is taken along gets a name again. -/
theorem isName_relocatedName? {f t : String} (hn : IsName u.newName) (hf : IsName f)
    (h : u.relocatedName? f = some t) : IsName t := by
  obtain ⟨rest, -, -, rfl⟩ := renamed?_eq_some h
  refine isName_append hn ?_
  rw [String.toList_ofList]
  exact fun hs => hf.2.2.2 (List.mem_of_mem_drop hs)

/-- A file takes along what has its name in its directory. -/
theorem relocate_of_file (hs : u.style = .file) (h : u.relocate p = some m) :
    ∃ f t, IsName f ∧ p.components = u.oldParent.components ++ [.name f] ∧
      u.relocatedName? f = some t ∧ m = u.newParent.join ⟨t⟩ := by
  unfold relocate at h
  rw [hs] at h
  simp only [Option.bind_eq_bind, Option.bind_eq_some_iff] at h
  obtain ⟨dir, hdir, h⟩ := h
  split at h
  · rename_i hsame
    obtain ⟨f, hf, h⟩ := Option.bind_eq_some_iff.1 h
    obtain ⟨t, ht, h⟩ := Option.bind_eq_some_iff.1 h
    cases h
    -- the path is that of its directory, with the name of the file behind it
    obtain ⟨c, -, hc⟩ := components_of_parent? hdir
    obtain ⟨cs, hcs⟩ := fileName?_eq_some_iff.1 hf
    refine ⟨f, t, isName_of_fileName? hf, ?_, ht, rfl⟩
    rw [hc] at hcs
    obtain ⟨rfl, hcf⟩ := List.append_inj' hcs rfl
    rw [hc, hcf, same_iff.1 hsame]
  · cases h

/-- A directory takes along what lies in it. -/
theorem relocate_of_directory (hs : u.style = .directory) (h : u.relocate p = some m) :
    ∃ cs, p.components = u.old.components ++ cs ∧
      m = if cs = [] then u.newModule else u.newModule.join ⟨joinText '/' (textsOf cs)⟩ := by
  unfold relocate below? at h
  rw [hs] at h
  simp only at h
  split at h
  · cases h
  · rename_i hb
    rw [Option.ite_none_right_eq_some, List.isPrefixOf_iff_prefix] at hb
    obtain ⟨⟨cs, hcs⟩, hdrop⟩ := hb
    rw [← hcs, List.drop_left] at hdrop
    cases h
    exact ⟨cs, hcs.symm, by rw [if_pos (Option.some.inj hdrop)]⟩
  · rename_i rest hne hb
    rw [Option.ite_none_right_eq_some, List.isPrefixOf_iff_prefix] at hb
    obtain ⟨⟨cs, hcs⟩, hdrop⟩ := hb
    rw [← hcs, List.drop_left] at hdrop
    obtain rfl := Option.some.inj hdrop
    cases h
    exact ⟨cs, hcs.symm, by rw [if_neg fun h0 => hne h0]⟩

/-- A directory takes along what lies at it or further down. -/
theorem travels_of_directory (hs : u.style = .directory) (q : Path) :
    u.travels q = q.isUnder u.old := by
  unfold travels relocate below? isUnder
  rw [hs]
  simp only
  cases u.old.components.isPrefixOf q.components with
  | false => rfl
  | true =>
    rw [if_pos rfl]
    cases q.components.drop u.old.components.length <;> rfl

end

/-! ## §3. Where a unit goes. -/

section

variable {old new root : Path} {δ : Delta}

/-- **The directory that a unit enters** is the one that its new place is in. -/
theorem components_newParent (hroot : Normal root.components)
    (hδ : Delta.compute old new root = .ok δ) {ns : List String} (hold : root.GoesOn old ns) :
    ∃ as a bs b, ns = as ++ [a] ∧
      (old.parent?.getD root).components = root.components ++ as.map Component.name ∧
      new.normalize.components = root.components ++ (bs ++ [b]) ∧
      (δ.applyTo (old.parent?.getD root)).components = root.components ++ bs := by
  obtain ⟨cs, xs, ys, a, b, ho, hn, hr, ha⟩ := Delta.compute_eq_ok hδ
  have hrn : root.normalize.components = root.components := by
    rw [components_normalize, normalComponents_of_normal hroot]
  have hon : old.normalize.components = old.components := by
    rw [components_normalize, normalComponents_of_normal (hold.normal_of_normal hroot)]
  rw [hrn] at ho hn
  rw [hon] at ho
  have hns : ns.map Component.name = cs ++ xs ++ [a] := by
    have heq := hold.2
    rw [ho] at heq
    exact (List.append_cancel_left heq).symm
  have hnormal := normal_components_normalize new
  rw [hn] at hnormal
  have hdir := Delta.components_directory ho (hold.normal_of_normal hroot)
  rcases List.eq_nil_or_concat' ns with rfl | ⟨as, s, rfl⟩
  · simp at hns
  rw [List.map_append, List.map_singleton] at hns
  obtain ⟨hcx, -⟩ := List.append_inj' hns rfl
  refine ⟨as, s, cs ++ ys, b, rfl, by rw [hdir, hcx], hn, ?_⟩
  -- going up, no step takes the root away
  have hx : Component.root ∉ xs := by
    intro hx
    have : Component.root ∈ as.map Component.name := by
      rw [hcx]
      exact List.mem_append_right _ hx
    simp at this
  -- what is entered is a beginning of the new path, which has no detours
  have hy : Normal (root.components ++ cs ++ ys) := by
    have heq : root.components ++ (cs ++ ys ++ [b])
        = root.components ++ cs ++ ys ++ [b] := by simp
    rw [heq] at hnormal
    exact hnormal.of_append
  rw [Delta.components_applyTo hr ha (by rw [hdir, List.append_assoc]) hx hy, List.append_assoc]

end

/-! ## §4. In an absolute project. -/

section

variable {d : Disk} {p : Project} {old new t m : Path} {δ : Delta} {rs ts : List String}

/-- What is taken along is named, so the unit is. -/
theorem goesOn_old (hδ : Delta.compute old new p.root = .ok δ)
    (hf : (make d p old new δ).style = .file → ∃ s, old.fileName? = some s)
    (ht : top.GoesOn t ts) (h : (make d p old new δ).relocate t = some m) :
    ∃ os, top.GoesOn old os := by
  cases hs : (make d p old new δ).style with
  | file =>
    obtain ⟨s, hname⟩ := hf hs
    obtain ⟨cs, hcs⟩ := fileName?_eq_some_iff.1 hname
    obtain ⟨q, hq, hqc⟩ := parent?_eq_some hcs (by simp)
    obtain ⟨f, -, -, hcomp, -, -⟩ := relocate_of_file hs h
    have hparent : (make d p old new δ).oldParent = q := by
      show old.parent?.getD p.root = q
      rw [hq]
      rfl
    -- what is taken along lies in the directory of the unit, which is known from there
    rw [hparent, hqc, ht.2] at hcomp
    rcases List.eq_nil_or_concat' ts with rfl | ⟨ts, x, rfl⟩
    · rcases List.append_eq_singleton_iff.1 hcomp.symm with ⟨-, h'⟩ | ⟨-, h'⟩ <;> cases h'
    · rw [List.map_append, List.map_singleton, ← List.append_assoc] at hcomp
      obtain ⟨hcs', -⟩ := List.append_inj' hcomp rfl
      refine ⟨ts ++ [s], ?_, ?_⟩
      · intro r hr
        rcases List.mem_append.1 hr with hr | hr
        · exact ht.1 r (List.mem_append_left _ hr)
        · rw [List.mem_singleton.1 hr]
          exact isName_of_fileName? hname
      · rw [hcs, ← hcs', List.map_append, List.map_singleton, List.append_assoc]
  | directory =>
    obtain ⟨cs, hcomp, -⟩ := relocate_of_directory hs h
    have hcomp : t.components = old.components ++ cs := hcomp
    have hnormal : Normal old.components := by
      have := ht.normal
      rw [hcomp] at this
      exact this.of_append
    cases hc : old.components with
    | nil =>
      -- an empty path is not in a project
      exfalso
      obtain ⟨ds, xs, -, a, -, ho, -⟩ := Delta.compute_eq_ok hδ
      rw [components_normalize, hc] at ho
      have := congrArg List.length ho
      simp [normalComponents] at this
    | cons c os =>
      rw [hc, ht.2] at hcomp
      obtain ⟨rfl, -⟩ := List.cons.inj (show Component.root :: _ = c :: _ from hcomp)
      exact hnormal.goesOn hc

/-- The unit is in the project, and so is the directory that it enters. -/
theorem goesOn_unit (hroot : top.GoesOn p.root rs) (hδ : Delta.compute old new p.root = .ok δ)
    {os : List String} (hold : top.GoesOn old os) : ∃ as a bs, p.root.GoesOn old (as ++ [a]) ∧
      p.root.GoesOn (make d p old new δ).oldParent as ∧
      p.root.GoesOn (make d p old new δ).newParent bs := by
  have hrn : p.root.normalize.components = p.root.components := by
    rw [components_normalize, normalComponents_of_normal hroot.normal]
  obtain ⟨ns, hns⟩ : ∃ ns, p.root.GoesOn old ns := by
    obtain ⟨cs, xs, -, a, -, ho, -⟩ := Delta.compute_eq_ok hδ
    rw [components_normalize, normalComponents_of_normal hold.normal, hrn] at ho
    obtain ⟨ms, -, hms⟩ := GoesOn.of_append hroot hold ho
    exact ⟨ms, hms⟩
  obtain ⟨as, a, bs, b, rfl, hdir, hnew, henter⟩ := components_newParent hroot.normal hδ hns
  have hbs : ∃ ms, p.root.GoesOn (make d p old new δ).newParent ms := by
    have henter : (make d p old new δ).newParent.components = p.root.components ++ bs := henter
    have hnormal := normal_components_normalize new
    rw [hnew, ← List.append_assoc, ← henter] at hnormal
    have hcs := henter
    rw [hroot.2] at hcs
    obtain ⟨ms, hms⟩ := hnormal.of_append.goesOn hcs
    obtain ⟨ks, -, hks⟩ := GoesOn.of_append hroot hms henter
    exact ⟨ks, hks⟩
  obtain ⟨ms, hms⟩ := hbs
  exact ⟨as, a, ms, hns, ⟨fun s hs => hns.1 s (List.mem_append_left _ hs), hdir⟩, hms⟩

/-- What is taken along is in the project, and is not its root. -/
theorem goesOn_of_relocate (hroot : top.GoesOn p.root rs)
    (hδ : Delta.compute old new p.root = .ok δ)
    (hf : (make d p old new δ).style = .file → ∃ s, old.fileName? = some s)
    (ht : top.GoesOn t ts) (h : (make d p old new δ).relocate t = some m) :
    ∃ ns, p.root.GoesOn t ns ∧ ns ≠ [] := by
  obtain ⟨os, hos⟩ := goesOn_old hδ hf ht h
  obtain ⟨as, a, bs, hold, hleave, -⟩ := goesOn_unit (d := d) hroot hδ hos
  cases hs : (make d p old new δ).style with
  | file =>
    obtain ⟨f, g, hname, hcomp, -, -⟩ := relocate_of_file hs h
    refine ⟨as ++ [f], ⟨?_, ?_⟩, by simp⟩
    · exact List.forall_mem_append.2 ⟨hleave.1, List.forall_mem_singleton.2 hname⟩
    · rw [hcomp, hleave.2, List.map_append, List.map_singleton, List.append_assoc]
  | directory =>
    obtain ⟨cs, hcomp, -⟩ := relocate_of_directory hs h
    have hcomp : t.components = old.components ++ cs := hcomp
    obtain ⟨ns, -, hns⟩ := GoesOn.of_append hos ht hcomp
    exact ⟨_, hold.trans hns, by simp⟩

/-- **What is taken along is in the project**, and so is the place that it is taken to; neither is
    the root. -/
theorem goesOn_relocate (hroot : top.GoesOn p.root rs)
    (hδ : Delta.compute old new p.root = .ok δ)
    (hf : (make d p old new δ).style = .file → ∃ s, old.fileName? = some s)
    (hn : IsName (make d p old new δ).newName) (ht : top.GoesOn t ts)
    (h : (make d p old new δ).relocate t = some m) :
    (∃ ns, p.root.GoesOn t ns ∧ ns ≠ []) ∧ ∃ ms, p.root.GoesOn m ms ∧ ms ≠ [] := by
  refine ⟨goesOn_of_relocate hroot hδ hf ht h, ?_⟩
  obtain ⟨os, hos⟩ := goesOn_old hδ hf ht h
  obtain ⟨as, a, bs, hold, -, henter⟩ := goesOn_unit (d := d) hroot hδ hos
  cases hs : (make d p old new δ).style with
  | file =>
    obtain ⟨f, g, hname, -, hg, rfl⟩ := relocate_of_file hs h
    have hgn := isName_relocatedName? hn hname hg
    refine ⟨bs ++ [g], ⟨?_, ?_⟩, by simp⟩
    · exact List.forall_mem_append.2 ⟨henter.1, List.forall_mem_singleton.2 hgn⟩
    · rw [components_join_name _ hgn, henter.2, List.map_append, List.map_singleton,
        List.append_assoc]
  | directory =>
    obtain ⟨cs, hcomp, hm⟩ := relocate_of_directory hs h
    have hcomp : t.components = old.components ++ cs := hcomp
    obtain ⟨ns, rfl, hns⟩ := GoesOn.of_append hos ht hcomp
    have hmodule : p.root.GoesOn (make d p old new δ).newModule
        (bs ++ [(make d p old new δ).newName]) := by
      refine ⟨List.forall_mem_append.2 ⟨henter.1, List.forall_mem_singleton.2 hn⟩, ?_⟩
      unfold newModule
      rw [components_join_name _ hn, henter.2, List.map_append, List.map_singleton,
        List.append_assoc]
    -- the directory itself is taken along, or something in it
    by_cases h0 : ns.map Component.name = []
    · rw [if_pos h0] at hm
      rw [hm]
      exact ⟨_, hmodule, by simp⟩
    · rw [if_neg h0, textsOf_map_name] at hm
      have hjoin : (make d p old new δ).newModule.GoesOn m ns := by
        refine ⟨hns.1, ?_⟩
        have hne : ns ≠ [] := fun h1 => h0 (by rw [h1]; rfl)
        rw [hm, components_join (hroot.trans hmodule).text_ne_empty (isAbsolute_joinText hns.1 hne),
          Specifier.inner_names hns.1]
      exact ⟨_, hmodule.trans hjoin, by simp⟩

end

end MovedUnit

end ModuleMove
