import ModuleMove.Proofs.Plan.Lossless
import ModuleMove.Proofs.Unit.Back

/-!
# DESTINATIONS — when a unit ends up at the place that has been asked for

A plan reports the destination as it was asked for, with the extension of the file behind it where
that was left out.  The renames are put together anew, from the directory of the destination, its
name without a source extension, and what stands behind the unit's name in each file.  So a file
keeps its extension, whatever extension the destination has, and it ends up at the destination that
the plan reports exactly if both have the same one.  A directory always does.

Main statements:
  * `Preparation.mem_moves_old` — where the file that has been named is renamed to.
  * `destination_iff` — when that is the destination.
-/

namespace ModuleMove

open ModuleMove.Path MovedUnit

/-! ## §1. Source extensions at the end of names. -/

/-- What is cut off a name as its source extension, with the dot; nothing if it has none. -/
def sourceEnd (name : String) (extensions : List String) : String :=
  String.ofList (name.toList.drop (stripSourceExtension name extensions).length)

/-- A name is what is left without its source extension, and the extension. -/
theorem stripSourceExtension_append_sourceEnd (name : String) (extensions : List String) :
    stripSourceExtension name extensions ++ sourceEnd name extensions = name := by
  obtain ⟨rest, hname, -⟩ := exists_stripSourceExtension name extensions
  unfold sourceEnd
  generalize stripSourceExtension name extensions = stem at hname ⊢
  rw [hname, String.toList_append, ← String.length_toList, List.drop_left, String.ofList_toList]

/-- What is cut off is nothing, or a source extension with its dot. -/
theorem sourceEnd_eq (name : String) (extensions : List String) : sourceEnd name extensions = "" ∨
    ∃ ext ∈ extensions, sourceEnd name extensions = "." ++ ext := by
  obtain ⟨rest, hname, hrest⟩ := exists_stripSourceExtension name extensions
  have hcut := stripSourceExtension_append_sourceEnd name extensions
  have hend : sourceEnd name extensions = rest :=
    (String.append_right_inj _).1 (hcut.trans hname)
  rw [hend]
  exact hrest.imp_right fun h => h.2

/-- A source extension without dots is what is cut off. -/
theorem sourceEnd_append {stem ext : String} {extensions : List String} (hstem : stem ≠ "")
    (hext : ext ∈ extensions) (hdots : ∀ x ∈ extensions, '.' ∉ x.toList) :
    sourceEnd (stem ++ ("." ++ ext)) extensions = "." ++ ext := by
  have hcut := stripSourceExtension_append_sourceEnd (stem ++ ("." ++ ext)) extensions
  rw [stripSourceExtension_append hstem hext hdots] at hcut
  exact (String.append_right_inj _).1 hcut

/-- A file gets the new name in front of its extension. -/
theorem MovedUnit.relocatedName?_self {u : MovedUnit} {a : String}
    (h : u.name = stripSourceExtension a u.extensions) :
    u.relocatedName? a = some (u.newName ++ sourceEnd a u.extensions) := by
  have hcut := stripSourceExtension_append_sourceEnd a u.extensions
  have hrenamed : u.renamed? (u.name ++ "" ++ sourceEnd a u.extensions) (u.name ++ "") = _ :=
    u.renamed?_append (.inl rfl) (sourceEnd a u.extensions)
  simp only [String.append_empty] at hrenamed
  unfold MovedUnit.relocatedName?
  rw [← h] at hcut ⊢
  rw [hcut] at hrenamed
  exact hrenamed

namespace Preparation

section

variable {d : Disk} {p : Project} {old new old' new' : Path} {δ : Delta} {added : Option String}
  {rs : List String}

/-! ## §2. What is checked is there. -/

/-- An extension is put behind the path of a unit if nothing is there, but a file is under the path
    with the extension. -/
theorem locateUnit_eq_added {ext : String} (h : locateUnit d p old = .ok (old', some ext)) :
    ext ∈ p.extensions ∧ old' = (p.absolute old).withExtension ext ∧
      d.has (p.absolute old) = false ∧ d.hasFile old' = true := by
  unfold locateUnit at h
  simp only at h
  split at h
  · cases h
  · rename_i hno
    split at h
    · rename_i e hf
      cases h
      have hfile := List.find?_some hf
      exact ⟨List.mem_of_find?_eq_some hf, rfl, Bool.eq_false_iff.2 hno, hfile⟩
    · cases h

/-- What a unit is located at is there. -/
theorem has_of_locateUnit (h : locateUnit d p old = .ok (old', added)) : d.has old' = true := by
  cases added with
  | some ext =>
    obtain ⟨-, -, -, hfile⟩ := locateUnit_eq_added h
    obtain ⟨pl, c, hl⟩ := Disk.hasFile_iff.1 hfile
    unfold Disk.has Disk.node?
    rw [hl]
    rfl
  | none =>
    unfold locateUnit at h
    simp only at h
    split at h
    · cases h
      assumption
    · split at h <;> cases h

/-- What is moved as a file is one. -/
theorem hasFile_of_check (h : check d p old new = .ok (old', new', δ))
    (hs : (MovedUnit.make d p old' new' δ).style = .file) : d.hasFile old' = true := by
  obtain ⟨added, hl, -⟩ := check_eq_ok h
  have hhas := has_of_locateUnit hl
  have hno : d.hasDirectory old' = false := by
    rw [Bool.eq_false_iff]
    intro hdir
    rw [style_make, if_pos hdir] at hs
    cases hs
  unfold Disk.has at hhas
  unfold Disk.hasDirectory at hno
  unfold Disk.hasFile
  cases hn : d.node? old' with
  | none =>
    rw [hn] at hhas
    cases hhas
  | some n =>
    rw [hn] at hno
    simpa using hno

/-- Behind the root of the tree, an extension is the name itself, if there is one. -/
theorem straight_of_root {q : Path} {ext s : String} (hq : q.Straight []) (hext : '/' ∉ ext.toList)
    (hname : (q.withExtension ext).fileName? = some s) :
    ∃ ns, (q.withExtension ext).Straight ns := by
  have htext : q.withExtension ext = ⟨"/" ++ ("." ++ ext)⟩ := by
    unfold Path.withExtension
    rw [hq.2]
    rfl
  rw [htext] at hname ⊢
  by_cases hn : IsName ("." ++ ext)
  · exact ⟨["." ++ ext], List.forall_mem_singleton.2 hn, by rw [joinText_singleton]⟩
  · -- a dot or two lead nowhere from the root, and are no name
    exfalso
    unfold IsName at hn
    simp only [not_and_or, not_not] at hn
    rcases hn with hn | hn | hn | hn
    · simp at hn
    · rw [hn] at hname
      cases hname
    · rw [hn] at hname
      cases hname
    · rw [String.toList_append, List.mem_append] at hn
      exact hn.elim (by decide) hext

/-- The destination of a checked move is straight. -/
theorem straight_of_check (hd : d.WellFormed) (hroot : p.root.Straight rs)
    (hexts : ∀ ext ∈ p.extensions, '/' ∉ ext.toList)
    (h : check d p old new = .ok (old', new', δ)) : ∃ ns, new'.Straight ns := by
  obtain ⟨s, hname⟩ := exists_fileName_of_check hd hroot.goesOn h
  obtain ⟨added, hl, hnew, -⟩ := check_eq_ok h
  obtain ⟨ns, hns⟩ := p.straight_absolute hroot new
  unfold completed at hnew
  split at hnew
  · exact ⟨ns, hnew ▸ hns⟩
  · rename_i ext
    simp only at hnew
    split at hnew
    · have hext := hexts ext (locateUnit_eq_added hl).1
      rw [hnew] at hname ⊢
      rcases List.eq_nil_or_concat' ns with rfl | ⟨ks, k, rfl⟩
      · exact straight_of_root hns hext hname
      · exact ⟨_, hns.withExtension hext⟩
    · exact ⟨ns, hnew ▸ hns⟩

end

/-! ## §3. Where a file is renamed to. -/

section

variable {d : Disk} {p : Project} {old new : Path} {x : Preparation} {rs : List String}

/-- The places of a file that is moved: its own, its directory's, its destination's, and that of the
    directory of the destination. -/
theorem exists_straight_file (hd : d.WellFormed) (hroot : p.root.Straight rs)
    (hexts : ∀ ext ∈ p.extensions, '/' ∉ ext.toList) (h : make d p old new = .ok x) :
    ∃ as a gs b, x.unit.old.Straight (as ++ [a]) ∧ x.unit.oldParent.Straight as ∧
      x.unit.new.Straight (gs ++ [b]) ∧ x.unit.newParent.Straight gs := by
  obtain ⟨old', new', δ, hc, hu, -⟩ := make_eq_ok h
  obtain ⟨-, -, -, hδ, -⟩ := check_eq_ok hc
  obtain ⟨as, a, -, hold, hleave, -⟩ := exists_straight_unit hd.rooted hroot hexts hc
  obtain ⟨ns, hnew⟩ := straight_of_check hd hroot hexts hc
  obtain ⟨gs, b, rfl, henter⟩ := straight_newParent (d := d) hroot hold hnew hδ
  rw [hu]
  exact ⟨as, a, gs, b, hold, hleave, hnew, henter⟩

/-- **A file is renamed to its destination's name with its own extension**, in the directory of the
    destination; the destination has that name with the extension that has been asked for. -/
theorem mem_moves_old (hd : d.WellFormed) (hroot : p.root.Straight rs)
    (hexts : ∀ ext ∈ p.extensions, '/' ∉ ext.toList) (h : make d p old new = .ok x)
    (hs : x.unit.style = .file) : ∃ a b, x.unit.old.fileName? = some a ∧
      x.unit.new.fileName? = some b ∧
      (x.unit.old, x.unit.newParent.join ⟨x.unit.newName ++ sourceEnd a p.extensions⟩)
        ∈ x.plan.moves ∧
      x.unit.new = x.unit.newParent.join ⟨x.unit.newName ++ sourceEnd b p.extensions⟩ := by
  obtain ⟨as, a, gs, b, hold, hleave, hnew, henter⟩ := exists_straight_file hd hroot hexts h
  obtain ⟨old', new', δ, hc, hu, -⟩ := make_eq_ok h
  have hfile : d.hasFile x.unit.old = true := by
    rw [hu] at hs ⊢
    exact hasFile_of_check hc hs
  obtain ⟨es, hes, hmem⟩ := list_of_make h hs
  have ha := fileName?_of_goesOn hold.goesOn
  have hb := fileName?_of_goesOn hnew.goesOn
  -- the file is an entry of its directory
  have hn : IsName a := hold.1 a (by simp)
  have hat : x.unit.old = x.unit.oldParent.join ⟨a⟩ := hold.ext (hleave.join hn)
  have hgo : x.unit.oldParent.GoesOn x.unit.old [a] :=
    ⟨List.forall_mem_singleton.2 hn, hat ▸ components_join_name _ hn⟩
  obtain ⟨c, hentry⟩ := Disk.exists_mem_of_hasFile hes hgo hfile
  -- both names of the unit are what is left of the names at the ends of the paths
  have hnames : ∀ {q : Path} {s : String}, q.fileName? = some s →
      nameOf x.unit.style p.extensions q = stripSourceExtension s p.extensions := by
    intro q s hq
    rw [hs]
    unfold nameOf
    rw [hq]
    rfl
  have hname : x.unit.name = stripSourceExtension a x.unit.extensions := by
    rw [hu] at ha hnames ⊢
    exact hnames ha
  have hnewName : x.unit.newName = stripSourceExtension b p.extensions := by
    rw [hu] at hb hnames ⊢
    exact hnames hb
  have hextensions : x.unit.extensions = p.extensions := by
    rw [hu]
    rfl
  have hself := relocatedName?_self hname
  rw [hextensions] at hself
  have hentryName : x.unit.entryName? (a, .file c)
      = some (x.unit.newName ++ sourceEnd a p.extensions) := by
    show (x.unit.relocatedName? a).orElse _ = _
    rw [hself]
    rfl
  refine ⟨a, b, ha, hb, (hmem _).2 ⟨_, hentry, _, hentryName, ?_⟩, ?_⟩
  · rw [hat]
  · rw [hnewName, stripSourceExtension_append_sourceEnd]
    exact hnew.ext (henter.join (hnew.1 b (by simp)))

/-- **A file ends up at its destination exactly if it has the same extension.** -/
theorem mem_moves_iff_of_file (hd : d.WellFormed) (hroot : p.root.Straight rs)
    (hexts : ∀ ext ∈ p.extensions, '/' ∉ ext.toList) (h : make d p old new = .ok x)
    (hs : x.unit.style = .file) : (x.unit.old, x.unit.new) ∈ x.plan.moves ↔
      sourceEnd (x.unit.new.fileName?.getD "") p.extensions
        = sourceEnd (x.unit.old.fileName?.getD "") p.extensions := by
  obtain ⟨a, b, ha, hb, hmem, hnew⟩ := mem_moves_old hd hroot hexts h hs
  rw [ha, hb]
  show _ ↔ sourceEnd b p.extensions = sourceEnd a p.extensions
  constructor
  · intro hasked
    -- the file is renamed once, so that the two places are one
    have heq := eq_of_same Prod.fst ((pairwise_moves hd hroot h).imp fun {m k} hmk => hmk.1) hasked
      hmem (same_refl _)
    have hplaces := hnew.symm.trans (congrArg Prod.snd heq)
    obtain ⟨as, a', gs, b', -, -, -, henter⟩ := exists_straight_file hd hroot hexts h
    have htext : ∀ {s : String} {q : Path}, q.fileName? = some s →
        x.unit.newName ++ sourceEnd s p.extensions ≠ "" ∧
          '/' ∉ (x.unit.newName ++ sourceEnd s p.extensions).toList := by
      intro s q hq
      have hname := isName_of_fileName? hq
      rw [← stripSourceExtension_append_sourceEnd s p.extensions] at hname
      exact text_newName_append hd hroot h hname
    have hends := join_inj henter.goesOn.text_ne_empty (htext hb).1 (htext ha).1 (htext hb).2
      (htext ha).2 (same_iff.2 (congrArg Path.components hplaces))
    exact (String.append_right_inj _).1 hends
  · intro hends
    rw [hnew, hends]
    exact hmem

/-- **Where the extension is left out of both names, a file ends up at its destination.** -/
theorem mem_moves_of_bare_names (hd : d.WellFormed) (hroot : p.root.Straight rs)
    (hexts : ∀ ext ∈ p.extensions, '/' ∉ ext.toList)
    (hdots : ∀ ext ∈ p.extensions, '.' ∉ ext.toList) (h : make d p old new = .ok x)
    (hs : x.unit.style = .file) {ext b : String}
    (hl : locateUnit d p old = .ok (x.unit.old, some ext))
    (hb : (p.absolute new).fileName? = some b) (hbare : ¬ EndsInSource b p.extensions) :
    (x.unit.old, x.unit.new) ∈ x.plan.moves := by
  rw [mem_moves_iff_of_file hd hroot hexts h hs]
  obtain ⟨old', new', δ, hc, hu, -⟩ := make_eq_ok h
  obtain ⟨added, hl', hnew, -⟩ := check_eq_ok hc
  have hold : x.unit.old = old' := by
    rw [hu]
    rfl
  obtain rfl : added = some ext := by
    rw [hl, hold] at hl'
    exact (Prod.mk.inj (Except.ok.inj hl')).2.symm
  obtain ⟨hext, hlocated, hno, -⟩ := locateUnit_eq_added hl
  -- the extension is put behind both names, and it is what is cut off from both of them
  have hend : ∀ {q : Path} {ks : List String} {k : String}, q.Straight (ks ++ [k]) →
      sourceEnd ((q.withExtension ext).fileName?.getD "") p.extensions = "." ++ ext := by
    intro q ks k hq
    rw [fileName?_of_goesOn (hq.withExtension (hexts ext hext)).goesOn]
    exact sourceEnd_append (hq.1 k (by simp)).1 hext hdots
  have hcompleted : x.unit.new = (p.absolute new).withExtension ext := by
    have hat : x.unit.new = new' := by
      rw [hu]
      rfl
    rw [hat, hnew]
    unfold completed
    rw [hb]
    exact if_pos (beq_iff_eq.2 (stripSourceExtension_of_not_endsInSource hbare))
  obtain ⟨ns, hns⟩ := p.straight_absolute hroot new
  obtain ⟨os, hos⟩ := p.straight_absolute hroot old
  obtain ⟨ks, k, rfl⟩ : ∃ ks k, ns = ks ++ [k] := by
    refine (List.eq_nil_or_concat' ns).resolve_left ?_
    rintro rfl
    obtain ⟨cs, hcs⟩ := fileName?_eq_some_iff.1 hb
    rw [hns.components] at hcs
    rcases List.append_eq_singleton_iff.1 hcs.symm with ⟨-, h⟩ | ⟨-, h⟩ <;> cases h
  obtain ⟨js, j, rfl⟩ : ∃ js j, os = js ++ [j] := by
    -- the root of the tree is there
    refine (List.eq_nil_or_concat' os).resolve_left ?_
    rintro rfl
    rw [Disk.has_straight hd.rooted hos, hd.rooted.look?_nil] at hno
    cases hno
  rw [hcompleted, hlocated, hend hns, hend hos]

end

end Preparation

/-- **A unit ends up at the destination that its plan reports** exactly if it is a directory, or if
    the destination ends with the same source extension as the file. -/
theorem destination_iff {d : Disk} {root : Path} {c : Config} {old new : Path} {pl : Plan}
    (hd : d.WellFormed) (habs : root.isAbsolute = true)
    (h : plan d (.ofRoot root c) old new = .ok pl)
    (hexts : pl.style = .file → ∀ ext ∈ c.extensions, '/' ∉ ext.toList) :
    (pl.old, pl.new) ∈ pl.moves ↔ (pl.style = .file →
      sourceEnd (pl.new.fileName?.getD "") c.extensions
        = sourceEnd (pl.old.fileName?.getD "") c.extensions) := by
  obtain ⟨x, hx, rfl⟩ := Preparation.plan_eq_ok h
  obtain ⟨rs, hroot⟩ := Project.straight_ofRoot habs c
  cases hs : x.unit.style with
  | file =>
    rw [show x.plan.style = x.unit.style from rfl, hs]
    exact (Preparation.mem_moves_iff_of_file hd hroot (hexts hs) hx hs).trans
      ⟨fun h _ => h, fun h => h rfl⟩
  | directory =>
    -- a directory is renamed as a whole, to the destination itself
    obtain ⟨-, -, -, -, -, -, hmodule⟩ := Preparation.exists_straight_of_directory hd hroot hx hs
    rw [moves_of_directory hs (Preparation.moves_of_make hx).1, hmodule]
    refine iff_of_true (List.mem_singleton_self _) fun hfile => ?_
    rw [show x.plan.style = x.unit.style from rfl, hs] at hfile
    cases hfile

/-- A disk with a source file and an empty directory. -/
def moduleDisk : Disk where
  top := .directory [("a.ts", .file (.text "export const a = 1;\n")), ("lib", .directory [])]
  here := []

theorem wellFormed_moduleDisk : moduleDisk.WellFormed := by
  refine ⟨?_, _, rfl⟩
  simp only [moduleDisk, Node.WellFormed, Node.AllWellFormed]
  decide

/-- The file keeps its extension, and so it ends up at a destination that has it. -/
theorem module_at_destination : ∃ pl,
    plan moduleDisk smallProject ⟨"a.ts"⟩ ⟨"lib/../lib/b.ts"⟩ = .ok pl ∧
      (pl.old, pl.new) = (⟨"/a.ts"⟩, ⟨"/lib/b.ts"⟩) ∧ (pl.old, pl.new) ∈ pl.moves := by
  obtain ⟨pl, hpl, heq⟩ : ∃ pl, plan moduleDisk smallProject ⟨"a.ts"⟩ ⟨"lib/../lib/b.ts"⟩ = .ok pl ∧
      (pl.old, pl.new) = (⟨"/a.ts"⟩, ⟨"/lib/b.ts"⟩) := exists_plan_of_map (by decide +kernel)
  refine ⟨pl, hpl, heq, ?_⟩
  obtain ⟨hold, hnew⟩ := Prod.mk.inj heq
  refine (destination_iff wellFormed_moduleDisk rfl hpl fun _ => by decide +kernel).2 fun _ => ?_
  rw [hold, hnew]
  decide +kernel

/-- A destination with another extension is reported, and the file is renamed to another place. -/
theorem module_beside_destination : ∃ pl,
    plan moduleDisk smallProject ⟨"a.ts"⟩ ⟨"lib/b.js"⟩ = .ok pl ∧
      (pl.old, pl.new) = (⟨"/a.ts"⟩, ⟨"/lib/b.js"⟩) ∧ pl.moves = [(⟨"/a.ts"⟩, ⟨"/lib/b.ts"⟩)] ∧
      (pl.old, pl.new) ∉ pl.moves := by
  obtain ⟨pl, hpl, heq⟩ : ∃ pl, plan moduleDisk smallProject ⟨"a.ts"⟩ ⟨"lib/b.js"⟩ = .ok pl ∧
      ((pl.old, pl.new), pl.moves) =
        ((⟨"/a.ts"⟩, ⟨"/lib/b.js"⟩), [(⟨"/a.ts"⟩, ⟨"/lib/b.ts"⟩)]) :=
    exists_plan_of_map (by decide +kernel)
  obtain ⟨hpaths, hmoves⟩ := Prod.mk.inj heq
  refine ⟨pl, hpl, hpaths, hmoves, ?_⟩
  rw [hpaths, hmoves]
  decide +kernel

end ModuleMove
