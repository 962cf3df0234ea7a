import ModuleMove.Proofs.Disk.Follow
import ModuleMove.Proofs.Unit.Relocate
import ModuleMove.Unit.Moves

/-!
# FOLLOWED MOVES — which of the renamed files references are led after

Two rules say what becomes of a file beside the unit: one renames it, the other leads references to
its new place.  They agree on directories and on modules.  A file that only shares the stem of the
unit, such as its style sheet, is renamed, and no reference is led after it.

Main statements:
  * `mem_moves_of_file` — what is renamed when a file is moved, and to what.
  * `exists_rest_of_entryName?` — the name that a file gets which goes along.
  * `moves_followed` — references are led after all that is renamed, unless it is no source file.
  * `stylesheet_not_followed` — a style sheet is renamed with its module and not followed.
-/

namespace ModuleMove

open ModuleMove.Path

/-! ## §1. Extensions. -/

/-- What follows the last dot of a text is known from the text. -/
theorem eq_of_last_dot {s t x y : String} (h : s ++ ("." ++ x) = t ++ ("." ++ y))
    (hx : '.' ∉ x.toList) (hy : '.' ∉ y.toList) : s = t ∧ x = y := by
  have hlist := congrArg String.toList h
  simp only [String.toList_append] at hlist
  rcases List.append_eq_append_iff.1 hlist with ⟨as, ht, hs⟩ | ⟨as, hs, ht⟩
  · cases as with
    | nil =>
      rw [List.append_nil] at ht
      exact ⟨(String.toList_inj.1 ht).symm, String.toList_inj.1 (List.append_cancel_left hs)⟩
    | cons c as =>
      -- the second dot would stand behind the first one
      have hx' : x.toList = as ++ '.' :: y.toList := (List.cons.inj hs).2
      exact absurd (by rw [hx']; exact List.mem_append_right _ (List.mem_cons_self ..)) hx
  · cases as with
    | nil =>
      rw [List.append_nil] at hs
      exact ⟨String.toList_inj.1 hs, (String.toList_inj.1 (List.append_cancel_left ht)).symm⟩
    | cons c as =>
      have hy' : y.toList = as ++ '.' :: x.toList := (List.cons.inj ht).2
      exact absurd (by rw [hy']; exact List.mem_append_right _ (List.mem_cons_self ..)) hy

/-- **A source extension without dots is what is stripped.** -/
theorem stripSourceExtension_append {stem ext : String} {extensions : List String}
    (hstem : stem ≠ "") (hext : ext ∈ extensions) (hdots : ∀ x ∈ extensions, '.' ∉ x.toList) :
    stripSourceExtension (stem ++ ("." ++ ext)) extensions = stem := by
  obtain ⟨rest, hname, hrest⟩ :=
    exists_stripSourceExtension (stem ++ ("." ++ ext)) extensions
  have hshorter := length_stripSourceExtension hstem hext
  -- something has been stripped, since the text is shorter; without a dot, it is the last piece
  rcases hrest with rfl | ⟨-, x, hx, rfl⟩
  · rw [String.append_empty] at hname
    rw [← hname] at hshorter
    exact absurd hshorter (Nat.lt_irrefl _)
  · exact (eq_of_last_dot hname (hdots ext hext) (hdots x hx)).1.symm

namespace MovedUnit

/-! ## §2. What is renamed. -/

section

variable {d : Disk} {u : MovedUnit} {ms : List (Path × Path)} {m : Path × Path}

/-- What is renamed when a directory is moved. -/
theorem moves_of_directory (hs : u.style = .directory) (h : u.moves d = .ok ms) :
    ms = [(u.old, u.newModule)] := by
  unfold moves at h
  rw [hs] at h
  exact (Except.ok.inj h).symm

/-- **What is renamed when a file is moved**: the files of its directory that get a new name. -/
theorem mem_moves_of_file (hs : u.style = .file) (h : u.moves d = .ok ms) :
    ∃ es, d.list u.oldParent = .ok es ∧ ∀ m, m ∈ ms ↔ ∃ e ∈ es, ∃ t,
      u.entryName? e = some t ∧ m = (u.oldParent.join ⟨e.1⟩, u.newParent.join ⟨t⟩) := by
  unfold moves at h
  rw [hs] at h
  cases hl : d.list u.oldParent with
  | error e =>
    rw [hl] at h
    cases h
  | ok es =>
    rw [hl] at h
    obtain rfl := Except.ok.inj h
    refine ⟨es, rfl, fun m => ?_⟩
    unfold movesAmong
    rw [List.mem_mergeSort, List.mem_filterMap]
    refine exists_congr fun e => and_congr_right fun _ => ?_
    rw [Option.map_eq_some_iff]
    exact exists_congr fun t => and_congr_right fun _ => eq_comm

/-- The entries of a directory have names. -/
theorem isName_of_mem_list (hd : d.WellFormed) {p : Path} {es : List (String × Node)}
    (h : d.list p = .ok es) {e : String × Node} (he : e ∈ es) : IsName e.1 := by
  obtain ⟨pl, hl⟩ := Disk.locate_of_list h
  exact ((Disk.wellFormed_of_locate hd hl).2 e he).1

/-- An entry that is renamed is a file, and gets a name by one of the two rules. -/
theorem entryName?_eq_some {e : String × Node} {t : String} (h : u.entryName? e = some t) :
    (∃ c, e.2 = .file c) ∧
      (u.relocatedName? e.1 = some t ∨
        u.relocatedName? e.1 = none ∧ u.siblingName? e.1 = some t) := by
  obtain ⟨name, n⟩ := e
  cases n with
  | directory es => cases h
  | file c =>
    refine ⟨⟨c, rfl⟩, ?_⟩
    unfold entryName? at h
    cases hr : u.relocatedName? name with
    | some s =>
      simp only [hr, Option.orElse_some] at h
      exact .inl h
    | none =>
      simp only [hr, Option.orElse_none] at h
      exact .inr ⟨rfl, h⟩

/-- A new name keeps what follows the name of the unit. -/
theorem exists_rest_of_renamed? {f stem z t : String} (h : u.renamed? f stem = some t)
    (hf : f = stem ++ z) : ∃ rest, f = u.name ++ rest ∧ t = u.newName ++ rest := by
  obtain ⟨rest, rfl, -, rfl⟩ := renamed?_eq_some h
  refine ⟨rest ++ z, by rw [hf, String.append_assoc], ?_⟩
  have hdrop : f.toList.drop u.name.length = (rest ++ z).toList := by
    rw [hf, String.append_assoc, String.toList_append, ← String.length_toList, List.drop_left]
  rw [hdrop, String.ofList_toList]

theorem exists_rest_of_relocatedName? {f t : String} (h : u.relocatedName? f = some t) :
    ∃ rest, f = u.name ++ rest ∧ t = u.newName ++ rest := by
  obtain ⟨z, hz, -⟩ := exists_stripSourceExtension f u.extensions
  exact exists_rest_of_renamed? h hz

/-- By both rules, a file that goes along gets the new name in the place of the old one. -/
theorem exists_rest_of_entryName? {e : String × Node} {t : String} (h : u.entryName? e = some t) :
    ∃ rest, e.1 = u.name ++ rest ∧ t = u.newName ++ rest := by
  -- the rules differ in where the stem ends, and not in what they make of it
  obtain ⟨-, hr | ⟨-, hr⟩⟩ := entryName?_eq_some h
  · exact exists_rest_of_relocatedName? hr
  · unfold siblingName? at hr
    split at hr
    · rename_i stem ext hlast
      exact exists_rest_of_renamed? hr
        (by rw [lastPiece_eq_some hlast, String.append_assoc])
    · cases hr

/-- The new name of a file that goes along is a name. -/
theorem isName_entryName? {e : String × Node} {t : String} (hn : IsName u.newName)
    (he : IsName e.1) (h : u.entryName? e = some t) : IsName t := by
  obtain ⟨rest, hrest, rfl⟩ := exists_rest_of_entryName? h
  refine isName_append hn fun hslash => he.2.2.2 ?_
  rw [hrest, String.toList_append]
  exact List.mem_append_right _ hslash

/-- Files of different names get different names. -/
theorem entryName?_inj {e g : String × Node} {t : String} (he : u.entryName? e = some t)
    (hg : u.entryName? g = some t) : e.1 = g.1 := by
  obtain ⟨rest, hrest, rfl⟩ := exists_rest_of_entryName? he
  obtain ⟨rest', hrest', heq⟩ := exists_rest_of_entryName? hg
  rw [hrest, hrest', String.append_right_inj _ |>.1 heq]

/-- The renames of a file and its companions are those of different entries. -/
theorem pairwise_moves_of_file {es : List (String × Node)}
    {R : Path × Path → Path × Path → Prop} (hR : ∀ {a b}, R a b → R b a)
    (hs : u.style = .file) (hl : d.list u.oldParent = .ok es) (h : u.moves d = .ok ms)
    (hes : (es.map (·.1)).Nodup)
    (hpair : ∀ e ∈ es, ∀ g ∈ es, e.1 ≠ g.1 → ∀ t, u.entryName? e = some t → ∀ s,
      u.entryName? g = some s → R (u.oldParent.join ⟨e.1⟩, u.newParent.join ⟨t⟩)
        (u.oldParent.join ⟨g.1⟩, u.newParent.join ⟨s⟩)) : ms.Pairwise R := by
  unfold moves at h
  rw [hs, hl] at h
  obtain rfl := Except.ok.inj h
  refine (List.mergeSort_perm _ _).symm.pairwise ?_ hR
  rw [List.pairwise_filterMap]
  refine (List.pairwise_map.1 hes).imp_of_mem fun {e g} he hg hne m hm k hk => ?_
  obtain ⟨t, ht, rfl⟩ := Option.map_eq_some_iff.1 hm
  obtain ⟨s, hs, rfl⟩ := Option.map_eq_some_iff.1 hk
  exact hpair e he g hg hne t ht s hs

end

/-! ## §3. What is followed. -/

section

variable {d : Disk} {u : MovedUnit} {ms : List (Path × Path)} {m : Path × Path}

/-- Beside a file that is moved, references are led after a name by the first rule alone. -/
theorem relocate_of_components (hs : u.style = .file) {p : Path} {name : String}
    (hc : p.components = u.oldParent.components ++ [.name name]) :
    u.relocate p = (u.relocatedName? name).map fun t => u.newParent.join ⟨t⟩ := by
  obtain ⟨q, hq, hqc⟩ := parent?_eq_some hc (by simp)
  have hname : p.fileName? = some name := fileName?_eq_some_iff.2 ⟨_, hc⟩
  unfold relocate
  rw [hs]
  simp only [hq, hname, Option.bind_eq_bind, Option.bind_some, same_iff.2 hqc, if_true]
  cases u.relocatedName? name <;> rfl

theorem relocate_join (hs : u.style = .file) {name : String} (hn : IsName name) :
    u.relocate (u.oldParent.join ⟨name⟩) =
      (u.relocatedName? name).map fun t => u.newParent.join ⟨t⟩ :=
  relocate_of_components hs (components_join_name u.oldParent hn)

theorem relocate_old (hs : u.style = .directory) : u.relocate u.old = some u.newModule := by
  have hpre : u.old.components.isPrefixOf u.old.components = true :=
    List.isPrefixOf_iff_prefix.2 (List.prefix_refl _)
  unfold relocate below?
  rw [hs]
  simp only [hpre, if_true, List.drop_length]

/-- A sibling that is no module of the unit has no source extension. -/
theorem extension_of_sibling (hname : u.name ≠ "") (hdots : ∀ x ∈ u.extensions, '.' ∉ x.toList)
    {name t : String} (hr : u.relocatedName? name = none) (h : u.siblingName? name = some t) :
    ∃ stem ext, lastPiece '.' name = (some stem, ext) ∧ stem ≠ "" ∧ ext ∉ u.extensions := by
  unfold siblingName? at h
  split at h
  · rename_i stem ext hlast
    obtain ⟨rest, hstem, -, -⟩ := renamed?_eq_some h
    have hne : stem ≠ "" := by
      rintro rfl
      exact hname (String.append_eq_empty_iff.1 hstem.symm).1
    -- with a source extension, the first rule would have cut the name at the same dot
    refine ⟨stem, ext, hlast, hne, fun hext => ?_⟩
    have hcut : name = stem ++ ("." ++ ext) := by
      rw [lastPiece_eq_some hlast, String.append_assoc]
    have hsame : u.relocatedName? name = u.renamed? name stem := by
      unfold relocatedName?
      have := stripSourceExtension_append hne hext hdots
      rw [← hcut] at this
      rw [this]
    rw [hsame, h] at hr
    cases hr
  · cases h

/-- **References are led after everything that is renamed, unless it is no source file**: a file
    that moves only because it shares the unit's stem has an extension that is none of the
    sources'. -/
theorem moves_followed (hd : d.WellFormed) (h : u.moves d = .ok ms) (hname : u.name ≠ "")
    (hdots : ∀ x ∈ u.extensions, '.' ∉ x.toList) :
    ∀ m ∈ ms, u.relocate m.1 = some m.2 ∨
      u.style = .file ∧ u.relocate m.1 = none ∧
        ∃ ext, m.1.extension? = some ext ∧ ext ∉ u.extensions := by
  intro m hm
  cases hs : u.style with
  | directory =>
    rw [moves_of_directory hs h, List.mem_singleton] at hm
    rw [hm]
    exact .inl (relocate_old hs)
  | file =>
    obtain ⟨es, hes, hmem⟩ := mem_moves_of_file hs h
    obtain ⟨e, he, t, ht, rfl⟩ := (hmem m).1 hm
    have hn := isName_of_mem_list hd hes he
    -- two rules give a file its new name, and paths are led by the first alone
    obtain ⟨-, hr | ⟨hr, hsib⟩⟩ := entryName?_eq_some ht
    · exact .inl (by rw [relocate_join hs hn, hr]; rfl)
    · refine .inr ⟨rfl, by rw [relocate_join hs hn, hr]; rfl, ?_⟩
      obtain ⟨stem, ext, hlast, hne, hext⟩ := extension_of_sibling hname hdots hr hsib
      refine ⟨ext, ?_, hext⟩
      have hfile : (u.oldParent.join ⟨e.1⟩).fileName? = some e.1 :=
        fileName?_eq_some_iff.2 ⟨_, components_join_name u.oldParent hn⟩
      unfold extension?
      simp [hfile, hlast, hne]

end

/-! ## §4. A file and its style sheet. -/

/-- A disk with a source file and its style sheet. -/
def styledDisk : Disk where
  top := .directory [("app", .directory [("foo.css", .file (.text "")),
    ("foo.ts", .file (.text "import './foo.css';\n"))]), ("lib", .directory [])]
  here := []

/-- The source file of the styled disk, on its way into another directory. -/
def styledUnit : MovedUnit :=
  .make styledDisk (.ofRoot ⟨"/"⟩ Config.default) ⟨"/app/foo.ts"⟩ ⟨"/lib/foo.ts"⟩
    ⟨"lib", .across, 1, ["app"], ["lib"]⟩

theorem wellFormed_styledDisk : styledDisk.WellFormed := by
  refine ⟨?_, _, rfl⟩
  simp only [styledDisk, Node.WellFormed, Node.AllWellFormed]
  decide

/-- The module is renamed, and its style sheet with it. -/
theorem moves_styledUnit : ∃ ms, styledUnit.moves styledDisk = .ok ms ∧
    (⟨"/app/foo.ts"⟩, ⟨"/lib/foo.ts"⟩) ∈ ms ∧ (⟨"/app/foo.css"⟩, ⟨"/lib/foo.css"⟩) ∈ ms := by
  have hok : (styledUnit.moves styledDisk).isOk = true := by decide +kernel
  cases h : styledUnit.moves styledDisk with
  | error e =>
    rw [h] at hok
    cases hok
  | ok ms =>
    obtain ⟨es, hes, hmem⟩ := mem_moves_of_file (by decide +kernel) h
    have hlist : styledDisk.list styledUnit.oldParent = .ok
        [("foo.css", .file (.text "")), ("foo.ts", .file (.text "import './foo.css';\n"))] := rfl
    obtain rfl := Except.ok.inj (hlist.symm.trans hes)
    refine ⟨ms, rfl, (hmem _).2 ⟨("foo.ts", .file (.text "import './foo.css';\n")), ?_, "foo.ts",
      by decide +kernel, by decide +kernel⟩, (hmem _).2 ⟨("foo.css", .file (.text "")), .head _,
        "foo.css", by decide +kernel, by decide +kernel⟩⟩
    exact .tail _ (.head _)

/-- References are led after the module.  The style sheet moves only because of its stem: its
    extension is none of the sources'. -/
theorem styled_module_followed : ∃ ms, styledUnit.moves styledDisk = .ok ms ∧
    (⟨"/app/foo.ts"⟩, ⟨"/lib/foo.ts"⟩) ∈ ms ∧
    styledUnit.relocate ⟨"/app/foo.ts"⟩ = some ⟨"/lib/foo.ts"⟩ ∧
    (styledUnit.relocate ⟨"/app/foo.css"⟩ = some ⟨"/lib/foo.css"⟩ ∨
      styledUnit.style = .file ∧ styledUnit.relocate ⟨"/app/foo.css"⟩ = none ∧
        ∃ ext, extension? ⟨"/app/foo.css"⟩ = some ext ∧ ext ∉ styledUnit.extensions) := by
  obtain ⟨ms, hms, hmodule, hsheet⟩ := moves_styledUnit
  have hfollowed := moves_followed wellFormed_styledDisk hms (by decide +kernel) (by decide +kernel)
  refine ⟨ms, hms, hmodule, ?_, hfollowed _ hsheet⟩
  rcases hfollowed _ hmodule with h | ⟨-, -, ext, hext, hno⟩
  · exact h
  · -- the extension of the module is one of the sources'
    have hts : extension? ⟨"/app/foo.ts"⟩ = some "ts" := by decide +kernel
    obtain rfl := Option.some.inj (hts.symm.trans hext)
    exact absurd (by decide +kernel) hno

/-- A style sheet is renamed with its module, and references to it are not led after it. -/
theorem stylesheet_not_followed : ∃ ms, styledUnit.moves styledDisk = .ok ms ∧
    (⟨"/app/foo.css"⟩, ⟨"/lib/foo.css"⟩) ∈ ms ∧ styledUnit.relocate ⟨"/app/foo.css"⟩ = none := by
  obtain ⟨ms, hms, -, hsheet⟩ := moves_styledUnit
  exact ⟨ms, hms, hsheet, by decide +kernel⟩

end MovedUnit

end ModuleMove
