import ModuleMove.Proofs.Plan.Rewritten

/-!
# NAMING — a specifier that leads to a unit names it

References are looked for by name, before it is known where they lead.  None is overlooked if a
specifier that leads to the unit from outside names it.  For a file this is so because the last
segment becomes the name at the end of the path.  For a directory it is so because steps that begin
outside of it have to enter it by its name.  The name of a directory is compared with a last
segment that has lost its source extension, so a directory whose name ends like that of a source
file is overlooked.

Main statements:
  * `mem_of_prefix_settle` — a name that steps have led into is one of the steps.
  * `naming_complete` — a reference that leads to the unit is kept in the index.
  * `directory_overlooked` — a directory whose name has a source extension is not named.
-/

namespace ModuleMove

open ModuleMove.Path

/-! ## §1. Steps into a directory. -/

namespace Path

/-- One step leads into a directory only by its name. -/
theorem prefix_of_prefix_settle_one {cs ps : List Component} {n : String} {d : Component}
    (h : ps ++ [.name n] <+: settle cs [d]) : ps ++ [.name n] <+: cs ∨ d = .name n := by
  -- a component that is put at the end is not in question, or is the name itself
  have hpush : ∀ {c : Component}, ps ++ [.name n] <+: cs ++ [c] →
      ps ++ [.name n] <+: cs ∨ c = .name n := by
    intro c hc
    rcases List.prefix_concat_iff.1 hc with heq | hpre
    · exact .inr (List.cons.inj (List.append_inj' heq rfl).2).1.symm
    · exact .inl hpre
  cases d with
  | root =>
    refine hpush ?_
    have heq : settle cs [.root] = cs ++ [.root] := by
      show (Component.root :: cs.reverse).reverse = _
      rw [List.reverse_cons, List.reverse_reverse]
    rwa [heq] at h
  | current =>
    have heq : settle cs [.current] = cs := List.reverse_reverse cs
    rw [heq] at h
    exact .inl h
  | name s => exact hpush (by rwa [settle_name] at h)
  | up =>
    rcases List.eq_nil_or_concat' cs with rfl | ⟨cs, c, rfl⟩
    · exact (hpush (c := .up) h).imp_right fun hc => by cases hc
    · have hrev : settle (cs ++ [c]) [.up] = (pushComponent (c :: cs.reverse) .up).reverse := by
        show (pushComponent (cs ++ [c]).reverse .up).reverse = _
        rw [List.reverse_append]
        rfl
      -- a step up takes a name away, stays at the root, and is kept behind anything else
      have hstep : (pushComponent (c :: cs.reverse) .up).reverse = cs ++ [c] ++ [.up] ∨
          (pushComponent (c :: cs.reverse) .up).reverse <+: cs ++ [c] := by
        cases c with
        | root => exact .inr (by simp [pushComponent])
        | current => exact .inl (by simp [pushComponent])
        | up => exact .inl (by simp [pushComponent])
        | name s => exact .inr (by simp [pushComponent])
      rw [hrev] at h
      rcases hstep with heq | hpre
      · rw [heq] at h
        exact (hpush h).imp_right fun hc => by cases hc
      · exact .inl (h.trans hpre)

/-- **A name that steps have led into is one of the steps**, unless they began below it. -/
theorem mem_of_prefix_settle {cs ds ps : List Component} {n : String}
    (h : ps ++ [.name n] <+: settle cs ds) : ps ++ [.name n] <+: cs ∨ .name n ∈ ds := by
  induction ds generalizing cs with
  | nil =>
    rw [settle_nil] at h
    exact .inl h
  | cons d ds ih =>
    rw [settle_cons] at h
    -- the steps that follow have led into the name, or the first one has
    rcases ih h with h | h
    · rcases prefix_of_prefix_settle_one h with h | rfl
      · exact .inl h
      · exact .inr (List.mem_cons_self ..)
    · exact .inr (List.mem_cons_of_mem _ h)

end Path

namespace Specifier

/-- **A specifier's pieces are the steps that it takes**, from the root of the tree or from its
    base. -/
theorem exists_settle_resolve (s : String) {dir root : Path} {ds rs : List String}
    (hd : top.GoesOn dir ds) (hr : top.GoesOn root rs) :
    ∃ b, (b = [.root] ∨ b = (base s dir root).components) ∧
      (resolve s dir root).components = settle b (Path.inner s) := by
  by_cases hdoubled : Doubled s
  · obtain ⟨t, rfl⟩ := hdoubled
    -- one slash is taken off as the anchor, and the other one makes the rest absolute
    refine ⟨[.root], .inl rfl, ?_⟩
    have hslash : ("//" ++ t : String) = "/" ++ ("/" ++ t) := by
      rw [← String.append_assoc]
      rfl
    have habs : isAbsolute ⟨"/" ++ t⟩ = true := isAbsolute_iff.2 ⟨t, rfl⟩
    unfold resolve
    rw [hslash, afterStart?_eq_some.2 rfl]
    show ((root.join ⟨"/" ++ t⟩).normalize).components = _
    rw [join_of_isAbsolute habs, components_normalize, components_of_slash, inner_slash,
      inner_slash, normalComponents_eq_settle, settle_cons]
    rfl
  · refine ⟨_, .inr rfl, ?_⟩
    rw [components_resolve hd.text_ne_empty hr.text_ne_empty hdoubled, normalComponents_append,
      normalComponents_of_normal]
    unfold base
    split
    · exact hr.normal
    · exact hd.normal

/-- A specifier whose last segment is a name leads to a place with that name. -/
theorem fileName?_resolve {s z : String} {as : List String} {dir root : Path}
    {ds rs : List String} (hd : top.GoesOn dir ds) (hr : top.GoesOn root rs)
    (hs : cutText '/' s = as ++ [z]) (hz : IsName z) :
    (resolve s dir root).fileName? = some z := by
  obtain ⟨b, -, hb⟩ := exists_settle_resolve s hd hr
  have hinner : Path.inner s = as.filterMap componentOf? ++ [.name z] := by
    unfold Path.inner
    rw [hs, List.filterMap_append, List.filterMap_cons_some (componentOf?_name hz),
      List.filterMap_nil]
  refine fileName?_eq_some_iff.2 ⟨settle b (as.filterMap componentOf?), ?_⟩
  rw [hb, hinner, settle_append, settle_name]

/-- A specifier that leads into a directory from outside of it names it in one of its segments. -/
theorem mem_cutText_of_enters {s n : String} {dir root : Path} {ds rs : List String}
    {ps : List Component} (hd : top.GoesOn dir ds) (hr : top.GoesOn root rs)
    (h : ps ++ [.name n] <+: (resolve s dir root).components) (hps : ps ≠ [])
    (hroot : ¬ ps ++ [.name n] <+: root.components) (hdir : ¬ ps ++ [.name n] <+: dir.components) :
    n ∈ cutText '/' s := by
  obtain ⟨b, hcases, hb⟩ := exists_settle_resolve s hd hr
  rw [hb] at h
  -- the steps began below the name, or one of them was the name
  rcases mem_of_prefix_settle h with hpre | hmem
  · rcases hcases with rfl | rfl
    · -- the root of the tree is in no directory
      have hlen := hpre.length_le
      rw [List.length_append, List.length_singleton, List.length_singleton] at hlen
      exact absurd (List.length_eq_zero_iff.1 (by omega)) hps
    · unfold base at hpre
      split at hpre
      · exact absurd hpre hroot
      · exact absurd hpre hdir
  · obtain ⟨piece, hpiece, hc⟩ := List.mem_filterMap.1 hmem
    obtain ⟨htext, -⟩ := componentOf?_eq_some hc
    have hn : n = piece := htext
    rwa [hn]

end Specifier

namespace MovedUnit

/-! ## §2. What is named. -/

section

variable {u : MovedUnit} {s z : String} {as : List String}

theorem matchesSpecifier_iff (hs : cutText '/' s = as ++ [z]) :
    u.matchesSpecifier s = true ↔
      stripSourceExtension z u.extensions = u.name ∨
        u.isCompanion (stripSourceExtension z u.extensions) = true ∨
          u.style = .directory ∧ u.name ∈ as := by
  unfold matchesSpecifier isName
  rw [hs, List.reverse_append]
  simp [or_assoc]

/-- A stem that is taken along is the name of the unit or of a companion. -/
theorem isCompanion_of_renamed? {f stem t : String} (h : u.renamed? f stem = some t) :
    stem = u.name ∨ u.isCompanion stem = true := by
  obtain ⟨rest, hstem, hrest, -⟩ := renamed?_eq_some h
  rcases hrest with rfl | hend
  · exact .inl (by rw [hstem, String.append_empty])
  · refine .inr ?_
    unfold isCompanion
    rw [afterStart?_eq_some.2 hstem]
    exact hend

end

/-- **A specifier that leads to a file unit from anywhere names it**, if it ends in a name. -/
theorem matchesSpecifier_of_file {u : MovedUnit} {s z : String} {as : List String}
    {dir root : Path} {ds rs : List String} (hd : top.GoesOn dir ds) (hr : top.GoesOn root rs)
    (hs : cutText '/' s = as ++ [z]) (hz : IsName z) (hstyle : u.style = .file)
    (h : (u.relocate (Specifier.resolve s dir root)).isSome = true) :
    u.matchesSpecifier s = true := by
  obtain ⟨m, hm⟩ := Option.isSome_iff_exists.1 h
  obtain ⟨f, t, -, hc, ht, -⟩ := relocate_of_file hstyle hm
  have hf := fileName?_eq_some_iff.2 ⟨_, hc⟩
  rw [Specifier.fileName?_resolve hd hr hs hz] at hf
  obtain rfl := Option.some.inj hf
  rw [matchesSpecifier_iff hs]
  rcases isCompanion_of_renamed? ht with hname | hcomp
  · exact .inl hname
  · exact .inr (.inl hcomp)

/-- **A specifier that leads into a directory unit from outside names it**, unless the name of the
    directory has a source extension. -/
theorem matchesSpecifier_of_directory {u : MovedUnit} {s z : String} {as : List String}
    {dir root : Path} {ds rs : List String} {ps : List Component} (hd : top.GoesOn dir ds)
    (hr : top.GoesOn root rs) (hs : cutText '/' s = as ++ [z]) (hstyle : u.style = .directory)
    (hold : u.old.components = ps ++ [.name u.name]) (hps : ps ≠ [])
    (hplain : stripSourceExtension u.name u.extensions = u.name)
    (hroot : root.isUnder u.old = false) (hdir : dir.isUnder u.old = false)
    (h : (u.relocate (Specifier.resolve s dir root)).isSome = true) :
    u.matchesSpecifier s = true := by
  have hunder : ∀ {q : Path}, q.isUnder u.old = false →
      ¬ ps ++ [.name u.name] <+: q.components := by
    intro q hq hpre
    unfold isUnder at hq
    rw [hold, List.isPrefixOf_iff_prefix.2 hpre] at hq
    cases hq
  obtain ⟨m, hm⟩ := Option.isSome_iff_exists.1 h
  obtain ⟨cs, hcs, -⟩ := relocate_of_directory hstyle hm
  have hpre : ps ++ [.name u.name] <+: (Specifier.resolve s dir root).components :=
    ⟨cs, by rw [hcs, hold]⟩
  -- the way began outside of the directory, so that one of its steps was the name
  have hmem := Specifier.mem_cutText_of_enters hd hr hpre hps (hunder hroot) (hunder hdir)
  rw [hs, List.mem_append, List.mem_singleton] at hmem
  rw [matchesSpecifier_iff hs]
  -- the last segment is compared without its extension, and the others as they are
  rcases hmem with hmem | rfl
  · exact .inr (.inr ⟨hstyle, hmem⟩)
  · exact .inl hplain

end MovedUnit

/-! ## §3. What is kept in the index. -/

namespace Preparation

variable {d : Disk} {p : Project} {old new : Path} {x : Preparation} {f : ScannedFile}
  {r : Reference}

/-- Above a file outside of a directory unit, there is no directory in it. -/
theorem not_isUnder_directoryOf {ns : List String}
    (hs : x.unit.style = .directory) {q : Path} (hq : p.root.GoesOn q ns) (hne : ns ≠ [])
    (h : x.unit.travels q = false) : (p.directoryOf q).isUnder x.unit.old = false := by
  rw [MovedUnit.travels_of_directory hs] at h
  obtain ⟨ns, n, rfl⟩ := (List.eq_nil_or_concat' ns).resolve_left hne
  have hc : q.components = (p.root.components ++ ns.map Component.name) ++ [.name n] := by
    rw [hq.2, List.map_append, List.map_singleton, List.append_assoc]
  obtain ⟨dir, hdir, hdc⟩ := parent?_eq_some hc (by simp)
  have heq : p.directoryOf q = dir := by
    unfold Project.directoryOf
    rw [hdir]
    rfl
  unfold isUnder at h ⊢
  rw [Bool.eq_false_iff, Ne, List.isPrefixOf_iff_prefix] at h ⊢
  rw [heq, hdc]
  -- a file lies in everything that its directory lies in
  intro hpre
  exact h (by rw [hc]; exact hpre.trans (List.prefix_append _ _))

/-- **No reference that leads to the unit is overlooked.**  If a relative specifier of a file that
    stays ends in a name and leads to something that is taken along, then it names the unit, and
    the reference is kept in the index.  A directory whose name has a source extension is the only
    exception. -/
theorem naming_complete {rs as : List String} {z : String} (hd : d.WellFormed)
    (hroot : top.GoesOn p.root rs) (h : make d p old new = .ok x) (hf : f ∈ x.index.scanned)
    (hstays : x.unit.travels f.path = false) (hr : r ∈ f.relativeReferences)
    (hs : cutText '/' r.specifier = as ++ [z]) (hz : IsName z)
    (hleads : (x.unit.relocate (targetOf p (p.directoryOf f.path) r)).isSome = true)
    (hplain : x.unit.style = .directory →
      stripSourceExtension x.unit.name x.unit.extensions = x.unit.name) :
    x.unit.matchesSpecifier r.specifier = true ∧
      ∃ qs, (f.path, qs) ∈ x.index.dependents.entries ∧ r ∈ qs := by
  have hsound := sound_of_make hd h
  obtain ⟨old', new', δ, hc, hu, -, rfl, rfl, -⟩ := make_eq_ok h
  obtain ⟨-, -, -, hδ, -⟩ := check_eq_ok hc
  obtain ⟨ns, hns, hne⟩ := hsound.index.goesOn f hf
  obtain ⟨ds, hdir⟩ := goesOn_directoryOf hroot hns hne
  have hmatches : x.unit.matchesSpecifier r.specifier = true := by
    cases hstyle : x.unit.style with
    | file => exact MovedUnit.matchesSpecifier_of_file hdir hroot hs hz hstyle hleads
    | directory =>
      -- the unit lies below the root of the project, and its path ends in its name
      obtain ⟨m, hm⟩ := Option.isSome_iff_exists.1 hleads
      obtain ⟨ts, hts⟩ := Specifier.goesOn_resolve r.specifier hdir hroot
      rw [hu] at hm
      obtain ⟨os, hos⟩ := MovedUnit.goesOn_old hδ
        (fun hfile => by rw [← hu, hstyle] at hfile; cases hfile) hts hm
      obtain ⟨ks, a, -, ha, -, -⟩ := MovedUnit.goesOn_unit (d := x.disk) hroot hδ hos
      have hold : x.unit.old.components
          = (x.project.root.components ++ ks.map Component.name) ++ [.name a] := by
        rw [hu]
        show old'.components = _
        rw [ha.2, List.map_append, List.map_singleton, List.append_assoc]
      have hname : x.unit.name = a := by
        have hstyle' := hstyle
        rw [hu] at hstyle' ⊢
        unfold MovedUnit.make at hstyle' ⊢
        simp only at hstyle' ⊢
        rw [hstyle']
        unfold MovedUnit.nameOf
        rw [fileName?_of_goesOn ha]
        rfl
      refine MovedUnit.matchesSpecifier_of_directory hdir hroot hs hstyle
        (by rw [hname]; exact hold) (by rw [hroot.2]; exact List.cons_ne_nil _ _) (hplain hstyle) ?_
        (not_isUnder_directoryOf hstyle hns hne hstays) hleads
      -- the root of the project has too few components to lie in the unit
      unfold isUnder
      rw [Bool.eq_false_iff, Ne, List.isPrefixOf_iff_prefix, hold]
      intro hpre
      have hlen := hpre.length_le
      rw [List.length_append, List.length_append, List.length_singleton] at hlen
      omega
  obtain ⟨hmem, hrelative⟩ := List.mem_filter.1 hr
  have hnaming : r ∈ Index.naming x.unit f := Index.mem_naming.2 ⟨hmem, hrelative, hmatches⟩
  exact ⟨hmatches, _, (hsound.index.dependents _ _).2
    ⟨List.ne_nil_of_mem hnaming, f, hf, rfl, rfl, hstays⟩, hnaming⟩

/-- The reference of the small project to its directory is kept in the index. -/
theorem small_reference_named : smallUnit.matchesSpecifier "./lib" = true ∧
    ∃ qs, (⟨"/a.ts"⟩, qs) ∈ smallPreparation.index.dependents.entries ∧ smallReference ∈ qs := by
  have hroot : top.GoesOn smallProject.root [] := ⟨by simp, rfl⟩
  have hscanned : smallFile ∈ smallPreparation.index.scanned := by
    rw [scanned_smallPreparation]
    exact .head _
  have hcut : cutText '/' smallReference.specifier = ["."] ++ ["lib"] := by decide
  exact naming_complete wellFormed_smallDisk hroot prepared_smallDisk hscanned (by decide +kernel)
    (.head _) hcut (by unfold IsName; decide) (by decide +kernel) fun _ => by decide +kernel

end Preparation

/-! ## §4. A directory with the name of a source file. -/

/-- A disk with a directory that has the extension of a source file, and a file that imports it. -/
def chartDisk : Disk where
  top := .directory [("chart.js", .directory [("index.ts", .file (.text ""))]),
    ("lib", .directory []), ("main.ts", .file (.text "import './chart.js';\n"))]
  here := []

/-- All of the disk, with the default configuration. -/
def chartProject : Project := .ofRoot ⟨"/"⟩ Config.default

/-- The directory, on its way into another one. -/
def chartUnit : MovedUnit :=
  .make chartDisk chartProject ⟨"/chart.js"⟩ ⟨"/lib/chart.js"⟩ ⟨"lib", .moveDown, 1, [], ["lib"]⟩

/-- A specifier that leads to a directory whose name has a source extension does not name it. -/
theorem directory_overlooked :
    chartUnit.relocate (Specifier.resolve "./chart.js" ⟨"/"⟩ chartProject.root)
        = some ⟨"/lib/chart.js"⟩ ∧
      chartUnit.matchesSpecifier "./chart.js" = false := by
  decide +kernel

end ModuleMove
