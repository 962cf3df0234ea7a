import ModuleMove.Proofs.Dependents.Naming
import ModuleMove.Proofs.Direction
import ModuleMove.Proofs.Plan.Destination

/-!
# EDITS THAT ARE NEEDED — a reference to something that moves does not stay as it is

Nothing that is carried along ends up where it was, so the specifier of its new place is not read
like the old one, and a specifier edit is found.  The new name of a file may also be two dots; then
the new specifier ends with a step up, and the old one ended with a name.  If the new name is one
dot, the new specifier is that of a directory, and that may be what the old one said.

Main statements:
  * `Preparation.not_same_of_directory`, `Preparation.not_same_of_file` — nothing that is carried
    along stays in its place.
  * `Preparation.exists_dependentEdit` — a reference that leads to the unit is edited.
-/

namespace ModuleMove

open ModuleMove.Path

namespace Specifier

/-! ## §1. Specifiers that are edited. -/

section

variable {q dir root m : Path} {r : Reference} {ds rs ms : List String}

/-- A specifier of another place is edited. -/
theorem exists_edit_of_not_same (hd : top.GoesOn dir ds) (hr : top.GoesOn root rs)
    (hm : root.GoesOn m ms) (hne : ms ≠ []) (hproper : Proper r.specifier)
    (h : ¬ (resolve r.specifier dir root).same m = true) :
    ∃ e, specifierEdit? q r (respecify r.specifier dir m root) = some e := by
  by_contra hnone
  have hnone : specifierEdit? q r (respecify r.specifier dir m root) = none :=
    Option.eq_none_iff_forall_ne_some.2 fun e he => hnone ⟨e, he⟩
  have hleads := resolve_respecify r.specifier hd hr (hr.trans hm)
  have hwanted := Preparation.proper_respecify r.specifier hd hr hm hne
  -- otherwise both specifiers are read alike
  rcases specifierEdit?_eq_none hnone with heq | hmade
  · rw [← heq] at hleads
    exact h hleads
  · obtain ⟨h1, h2, h3⟩ := read_of_reworked hmade hproper hwanted
      (isAnchored_respecify _ hd (hr.trans hm))
    exact h (same_trans (resolve_congr hd.text_ne_empty hr.text_ne_empty h2 hwanted.2.2 h1 h3)
      hleads)

/-- A specifier that needs no edit has the steps of what is wanted. -/
theorem inner_eq_of_edit_eq_none {wanted : String} (h : specifierEdit? q r wanted = none) :
    Path.inner r.specifier = Path.inner wanted := by
  rcases specifierEdit?_eq_none h with heq | ⟨ps, os, ns, ss, ms, hp, hmade, hfilter, -⟩
  · rw [heq]
  · unfold Path.inner
    rw [hmade, hp.new_eq]
    simp only [List.filterMap_append]
    rw [← filterMap_filter_ne_empty ms, hfilter, filterMap_filter_ne_empty]

theorem inner_joinText {ss : List String} (h : ∀ s ∈ ss, '/' ∉ s.toList) :
    Path.inner (joinText '/' ss) = ss.filterMap componentOf? := by
  cases ss with
  | nil => rfl
  | cons s ss =>
    unfold Path.inner
    rw [cutText_joinText (List.cons_ne_nil s ss) h]

/-- The way to a place that is written with a step up at its end has that step at its end. -/
theorem exists_inner_relative {way : List Component} (hd : top.GoesOn dir ds)
    (hm : m.components = .root :: way) (hway : ∀ c ∈ way, Plain c)
    (hup : way.getLast? = some .up) : ∃ cs, Path.inner (relative dir m) = cs ++ [.up] := by
  have hdc : dir.components = .root :: ds.map .name := hd.2
  have hlength : commonLength dir.components m.components
      = commonLength (ds.map .name) way + 1 := by
    rw [hm, hdc, commonLength, if_pos rfl, Nat.add_comm]
  have hpart := parting_commonLength (ds.map .name) way
  -- the step up is beyond what both share, as there is none on the way to the directory
  rcases List.eq_nil_or_concat' (way.drop (commonLength (ds.map .name) way))
    with hnil | ⟨bs, b, hbs⟩
  · have hup : Component.up ∈ ds.map Component.name :=
      (hpart.symm.prefix_iff.2 hnil).subset (List.mem_of_getLast? hup)
    simp at hup
  · have hb : b = .up := by
      rw [hpart.right, hbs] at hup
      simpa using hup
    have hbplain : ∀ c ∈ bs ++ [b], Plain c := by
      intro c hc
      rw [← hbs] at hc
      exact hway c (List.mem_of_mem_drop hc)
    have htexts : (textsOf (bs ++ [b])).filterMap componentOf? = bs ++ [b] :=
      filterMap_componentOf?_texts hbplain
    unfold relative
    simp only [hlength]
    rw [hm, List.drop_succ_cons, hbs, inner_joinText, List.filterMap_append, htexts, hb,
      ← List.append_assoc]
    · exact ⟨_, rfl⟩
    · intro s hs
      rcases List.mem_append.1 hs with hs | hs
      · -- a dot or steps up
        split at hs
        · rw [List.mem_singleton.1 hs]
          decide
        · obtain ⟨-, -, rfl⟩ := List.mem_map.1 hs
          decide
      · obtain ⟨c, hc, rfl⟩ := List.mem_map.1 hs
        exact (hbplain c hc).slash_not_mem

/-- The specifier of a place that is written with a step up at its end has that step at its end. -/
theorem exists_inner_respecify (s : String) {place : Path} {ns : List String}
    (hd : top.GoesOn dir ds) (hr : top.GoesOn root rs) (hplace : root.GoesOn place ns)
    (hm : m.components = place.components ++ [.up]) :
    ∃ cs, Path.inner (respecify s dir m root) = cs ++ [.up] := by
  have hplain : ∀ {ks : List String}, (∀ k ∈ ks, IsName k) →
      ∀ c ∈ ks.map Component.name ++ [.up], Plain c := by
    intro ks hks c hc
    rcases List.mem_append.1 hc with hc | hc
    · obtain ⟨k, hk, rfl⟩ := List.mem_map.1 hc
      exact plain_name (hks k hk)
    · exact .inl (List.mem_singleton.1 hc)
  unfold respecify
  split
  · have hbelow : m.below? root = some (ns.map .name ++ [.up]) := by
      unfold below?
      rw [hm, hplace.2, List.append_assoc, if_pos, List.drop_left]
      rw [List.isPrefixOf_iff_prefix]
      exact List.prefix_append _ _
    refine ⟨ns.map .name, ?_⟩
    unfold anchored
    rw [inner_slash, hbelow]
    exact inner_texts (hplain hplace.1)
  · -- both paths begin at the root, and go on by names, and the one by a step up
    refine exists_inner_relative hd ?_
      (hplain (List.forall_mem_append.2 ⟨hr.1, hplace.1⟩)) List.getLast?_concat
    rw [hm, hplace.2, hr.2, components_top]
    simp

/-- A specifier that ends with a name is edited if what is wanted ends with a step up. -/
theorem exists_edit_of_step_up {place : Path} {ns as : List String} {z : String}
    (hd : top.GoesOn dir ds) (hr : top.GoesOn root rs) (hplace : root.GoesOn place ns)
    (hm : m.components = place.components ++ [.up]) (hs : cutText '/' r.specifier = as ++ [z])
    (hz : IsName z) : ∃ e, specifierEdit? q r (respecify r.specifier dir m root) = some e := by
  by_contra hnone
  have hnone : specifierEdit? q r (respecify r.specifier dir m root) = none :=
    Option.eq_none_iff_forall_ne_some.2 fun e he => hnone ⟨e, he⟩
  obtain ⟨cs, hcs⟩ := exists_inner_respecify r.specifier hd hr hplace hm
  have hinner : Path.inner r.specifier = as.filterMap componentOf? ++ [.name z] := by
    unfold Path.inner
    rw [hs, List.filterMap_append, List.filterMap_cons_some (componentOf?_name hz),
      List.filterMap_nil]
  rw [← inner_eq_of_edit_eq_none hnone, hinner] at hcs
  cases (List.append_inj' hcs rfl).2

end

end Specifier

/-! ## §2. Nothing stays in its place. -/

/-- What lies in a directory stays in its place only if the directory does. -/
theorem MovedUnit.IsStraight.not_same_of_directory {u : MovedUnit} {t m : Path} {ts : List String}
    (hu : u.IsStraight) (hs : u.style = .directory) (ht : t.Straight ts)
    (hm : u.relocate t = some m) (hne : u.old ≠ u.newModule) : ¬ t.same m = true := by
  obtain ⟨js, hjs, hcarried⟩ := MovedUnit.straight_relocate hu ht hm
  obtain ⟨rest, hts, hms⟩ := (Course.carried_iff_of_directory hs).1 hcarried
  intro hsame
  have hnames : u.oldParent.names ++ [u.name] = u.newParent.names ++ [u.newName] := by
    refine List.append_cancel_right (?_ : _ ++ rest = _ ++ rest)
    rw [List.append_assoc, List.append_assoc]
    exact hts.symm.trans (((ht.same_iff hjs).1 hsame).trans hms)
  exact hne ((hu.old hs).ext (hnames ▸ hu.newModule))

namespace Preparation

section

variable {d : Disk} {p : Project} {old new t m : Path} {x : Preparation} {rs ts : List String}

/-- A file that is moved is an entry of its directory, and is named after the entry. -/
theorem exists_entry_of_file {old' new' : Path} {δ : Delta} {es : List (String × Node)}
    (hc : check d p old new = .ok (old', new', δ))
    (hs : (MovedUnit.make d p old' new' δ).style = .file)
    (hes : d.list (MovedUnit.make d p old' new' δ).oldParent = .ok es) :
    ∃ a c, (a, Node.file c) ∈ es ∧ IsName a ∧
      (MovedUnit.make d p old' new' δ).name = stripSourceExtension a p.extensions := by
  obtain ⟨stem, ext, hname, -⟩ := exists_extension hc hs
  obtain ⟨cs, hcs⟩ := fileName?_eq_some_iff.1 hname
  obtain ⟨q, hq, hqc⟩ := parent?_eq_some hcs (by simp)
  have ha := isName_of_fileName? hname
  have hparent : (MovedUnit.make d p old' new' δ).oldParent = q := by
    show old'.parent?.getD p.root = q
    rw [hq]
    rfl
  rw [hparent] at hes
  obtain ⟨c, hentry⟩ := Disk.exists_mem_of_hasFile hes
    ⟨List.forall_mem_singleton.2 ha, by rw [hcs, hqc]; rfl⟩ (hasFile_of_check hc hs)
  refine ⟨_, c, hentry, ha, ?_⟩
  show MovedUnit.nameOf (MovedUnit.make d p old' new' δ).style p.extensions old' = _
  unfold MovedUnit.nameOf
  rw [hs, hname]
  rfl

/-- A file that stays in its directory gets another name: it would be renamed to itself otherwise,
    and its destination would not be free. -/
theorem newName_ne_name (hd : d.WellFormed) (hroot : p.root.Straight rs)
    (h : make d p old new = .ok x) (hs : x.unit.style = .file)
    (hsame : x.unit.newParent.components = x.unit.oldParent.components) :
    x.unit.newName ≠ x.unit.name := by
  intro heq
  obtain ⟨es, as, G, has, hes, hleave, -⟩ := exists_enters_of_file hroot h hs
  obtain ⟨es', hes', hmoves⟩ := list_of_make h hs
  rw [hes] at hes'
  obtain rfl := Except.ok.inj hes'
  obtain ⟨old', new', δ, hc, hu, -⟩ := make_eq_ok h
  obtain ⟨a, c, hentry, ha, hname⟩ : ∃ a c, (a, Node.file c) ∈ es ∧ IsName a ∧
      x.unit.name = stripSourceExtension a x.unit.extensions := by
    rw [hu] at hs hes ⊢
    exact exists_entry_of_file hc hs hes
  have hself : x.unit.entryName? (a, .file c) = some a := by
    have hrelocated := MovedUnit.relocatedName?_self hname
    rw [heq, hname, stripSourceExtension_append_sourceEnd] at hrelocated
    show (x.unit.relocatedName? a).orElse _ = _
    rw [hrelocated]
    rfl
  have hmem : (x.unit.oldParent.join ⟨a⟩, x.unit.newParent.join ⟨a⟩) ∈ x.plan.moves :=
    (hmoves _).2 ⟨_, hentry, a, hself, rfl⟩
  have hfree := (moves_of_make h).2 _ hmem
  -- under its name the file is found in the directory that is entered, which is that it leaves
  have henter : d.Enters x.unit.newParent as := by
    obtain ⟨habs, hway⟩ := hleave
    rw [← hsame] at hway
    refine ⟨?_, hway⟩
    rw [isAbsolute_iff_components] at habs ⊢
    rwa [hsame]
  have hfind : d.top.find? (as ++ [a]) = some (.file c) := by
    have hnodup := (Disk.wellFormed_of_locate hd has).1
    rw [Node.find?_append, Disk.find?_of_locate has]
    show (Node.child? a es).bind some = _
    rw [Node.child?_of_mem hentry hnodup]
    rfl
  have hl := Disk.locate_join henter hd.rooted.keeps ha hfind
  unfold Disk.has Disk.node? at hfree
  rw [hl] at hfree
  cases hfree

/-- What goes along with a file does not stay in its place. -/
theorem not_same_of_file {f n : String} (hd : d.WellFormed) (hroot : p.root.Straight rs)
    (h : make d p old new = .ok x) (hs : x.unit.style = .file)
    (ht : t.components = x.unit.oldParent.components ++ [.name f])
    (hf : x.unit.relocatedName? f = some n) (hn : IsName n) :
    ¬ t.same (x.unit.newParent.join ⟨n⟩) = true := by
  intro hsame
  rw [same_iff, ht, components_join_name _ hn] at hsame
  obtain ⟨hparent, hname⟩ := List.append_inj' hsame rfl
  obtain ⟨rest, hrest, hnew⟩ := MovedUnit.exists_rest_of_relocatedName? hf
  -- only the name of the unit changes in what goes along, and that does
  have heq : x.unit.name ++ rest = x.unit.newName ++ rest := by
    rw [← hrest, ← hnew]
    exact Component.name.inj (List.cons.inj hname).1
  exact newName_ne_name hd hroot h hs hparent.symm ((String.append_left_inj _).1 heq).symm

/-- What lies in a directory that is moved does not stay in its place. -/
theorem not_same_of_directory (hroot : p.root.Straight rs) (h : make d p old new = .ok x)
    (hs : x.unit.style = .directory) (hn : IsName x.unit.newName) (ht : t.Straight ts)
    (hm : x.unit.relocate t = some m) : ¬ t.same m = true := by
  obtain ⟨old', new', δ, hc, hu, -⟩ := make_eq_ok h
  obtain ⟨-, -, -, hδ, -⟩ := check_eq_ok hc
  rw [hu] at hs hn hm
  obtain ⟨as, a, gs, hold, hleave, henter⟩ := MovedUnit.exists_straight_directory hroot hc hs
  refine (MovedUnit.isStraight_of_names hold hleave henter hn).not_same_of_directory hs ht hm ?_
  -- a directory that is already where it goes is refused
  rw [MovedUnit.newModule_of_directory hroot hc hs]
  intro heq
  exact (Delta.refusals_of_compute hδ).1 (same_iff.2 (by rw [← heq]; rfl))

/-! ## §3. References to the unit. -/

variable {f : ScannedFile} {r : Reference}

/-- A specifier that names a file has the name of the file in front in its last piece. -/
theorem isName_last_piece {s z : String} {as : List String} {u : MovedUnit} (hs : u.style = .file)
    (hmatches : u.matchesSpecifier s = true) (hcut : cutText '/' s = as ++ [z])
    (hname : IsName u.name) : IsName z := by
  have hslash : '/' ∉ z.toList := not_mem_of_mem_cutText (s := s) (by rw [hcut]; simp)
  obtain ⟨rest, hrest, -⟩ := exists_stripSourceExtension z u.extensions
  obtain ⟨w, hw⟩ : ∃ w, z = u.name ++ w := by
    rcases (MovedUnit.matchesSpecifier_iff hcut).1 hmatches with hstem | hstem | ⟨hdir, -⟩
    · exact ⟨rest, by rw [← hstem, ← hrest]⟩
    · unfold MovedUnit.isCompanion at hstem
      split at hstem
      · rename_i w hw
        exact ⟨w ++ rest, by rw [← String.append_assoc, ← afterStart?_eq_some.1 hw, ← hrest]⟩
      · cases hstem
    · rw [hs] at hdir
      cases hdir
  rw [hw]
  refine isName_append hname fun h => hslash ?_
  rw [hw, String.toList_append]
  exact List.mem_append_right _ h

theorem eq_dots_of_append {a b : String} (h : ¬ IsName (a ++ b)) (h0 : a ≠ "") (h1 : a ≠ ".")
    (hslash : '/' ∉ (a ++ b).toList) : a ++ b = ".." ∧ b = "" := by
  have hne : a ++ b ≠ "" := fun hab => h0 (String.append_eq_empty_iff.1 hab).1
  -- a dot is not made of two texts that are not empty, and of two dots only a dot is a beginning
  have hlists : ∀ l r : List Char, l ≠ [] → l ≠ ['.'] →
      l ++ r ≠ ['.'] ∧ (l ++ r = ['.', '.'] → r = []) := by
    intro l r hl hl'
    match l with
    | [] => exact absurd rfl hl
    | [c] =>
      refine ⟨fun heq => hl' ?_, fun heq => absurd ?_ hl'⟩ <;> simp_all
    | c :: d :: l => simp
  obtain ⟨hone, htwo⟩ := hlists a.toList b.toList (by simpa using h0)
    (fun ha => h1 (String.toList_inj.1 ha))
  rw [← String.toList_append] at hone htwo
  have hdots : a ++ b = ".." := by
    by_contra hno
    exact h ⟨hne, fun hab => hone (by rw [hab]; rfl), hno, hslash⟩
  exact ⟨hdots, String.toList_inj.1 (htwo (by rw [hdots]; rfl))⟩

/-- The places of a move that the specifier of a file is written for: the directory of the file, and
    a target that is carried along. -/
structure Leads (p : Project) (x : Preparation) (dir : Path) (r : Reference) (m : Path) : Prop where
  /-- The directory is straight. -/
  start : ∃ ds, dir.Straight ds
  /-- What the specifier leads to is carried along. -/
  led : x.unit.relocate (targetOf p dir r) = some m
  /-- The specifier is proper. -/
  proper : Specifier.Proper r.specifier

/-- A reference of a scanned file that leads to something that is carried along. -/
theorem leads_of_scanned (hd : d.WellFormed) (hroot : p.root.Straight rs)
    (h : make d p old new = .ok x) (hf : f ∈ x.index.scanned) (hrelative : r.isRelative = true)
    (hdoubled : ¬ Specifier.Doubled r.specifier)
    (hm : x.unit.relocate (targetOf p (p.directoryOf f.path) r) = some m) :
    Leads p x (p.directoryOf f.path) r m := by
  obtain ⟨old', new', δ, hc, hu, -⟩ := make_eq_ok h
  obtain ⟨-, -, -, hδ, -⟩ := check_eq_ok hc
  obtain ⟨ks, hks⟩ := straight_of_mem_scanned hd hroot h hf
  obtain ⟨ds, hdir⟩ := Project.straight_directoryOf hroot hks
  obtain ⟨ts, hts⟩ := Specifier.straight_resolve hdir hroot r.specifier
  refine ⟨⟨ds, hdir⟩, hm, ?_⟩
  -- the target lies below the root of the project, so that the specifier is not a slash
  have hbelow := hm
  rw [hu] at hbelow
  obtain ⟨js, hjs, hjne⟩ := MovedUnit.goesOn_of_relocate hroot.goesOn hδ
    (fun hfile => (exists_extension hc hfile).elim fun _ h => h.elim fun _ h => ⟨_, h.1⟩)
    hts.goesOn hbelow
  exact proper_of_below hdir.goesOn hroot.goesOn (Reference.ne_empty_of_isRelative hrelative)
    hdoubled hjs hjne

/-- A reference that leads into a directory unit is edited. -/
theorem Leads.exists_edit_of_directory {q dir : Path} (hd : d.WellFormed)
    (hroot : p.root.Straight rs) (h : make d p old new = .ok x) (hs : x.unit.style = .directory)
    (hl : Leads p x dir r m) :
    ∃ e, specifierEdit? q r (Specifier.respecify r.specifier dir m p.root) = some e := by
  obtain ⟨old', new', δ, hc, hu, -⟩ := make_eq_ok h
  obtain ⟨-, -, -, hδ, -⟩ := check_eq_ok hc
  obtain ⟨⟨ds, hdir⟩, hm, hproper⟩ := hl
  obtain ⟨ts, hts⟩ := Specifier.straight_resolve hdir hroot r.specifier
  -- a directory gets the name that its destination has
  have hn : IsName x.unit.newName := by
    rw [hu] at hs ⊢
    exact isName_newName_of_directory hd hroot.goesOn hc hs
  have hstays := not_same_of_directory hroot h hs hn hts hm
  rw [hu] at hm hn hs
  obtain ⟨-, js, hjs, hjne⟩ := MovedUnit.goesOn_relocate hroot.goesOn hδ
    (fun hfile => by rw [hs] at hfile; cases hfile) hn hts.goesOn hm
  exact Specifier.exists_edit_of_not_same hdir.goesOn hroot.goesOn hjs hjne hproper hstays

/-- A reference that leads to a file unit is edited, unless the new name is a dot. -/
theorem Leads.exists_edit_of_file {q dir : Path} (hd : d.WellFormed)
    (hroot : p.root.Straight rs) (h : make d p old new = .ok x) (hs : x.unit.style = .file)
    (hmatches : x.unit.matchesSpecifier r.specifier = true) (hdot : x.unit.newName ≠ ".")
    (hl : Leads p x dir r m) :
    ∃ e, specifierEdit? q r (Specifier.respecify r.specifier dir m p.root) = some e := by
  obtain ⟨old', new', δ, hc, hu, -⟩ := make_eq_ok h
  obtain ⟨-, -, -, hδ, -⟩ := check_eq_ok hc
  obtain ⟨⟨ds, hdir⟩, hm, hproper⟩ := hl
  obtain ⟨ts, hts⟩ := Specifier.straight_resolve hdir hroot r.specifier
  obtain ⟨a, n, ha, htc, hn, rfl⟩ := MovedUnit.relocate_of_file hs hm
  have henter : ∃ bs, p.root.GoesOn x.unit.newParent bs := by
    rw [hu] at hm hs ⊢
    obtain ⟨stem, ext, hname, -⟩ := exists_extension hc hs
    obtain ⟨os, hos⟩ := MovedUnit.goesOn_old hδ (fun _ => ⟨_, hname⟩) hts.goesOn hm
    obtain ⟨-, -, bs, -, -, hbs⟩ := MovedUnit.goesOn_unit (d := d) hroot.goesOn hδ hos
    exact ⟨bs, hbs⟩
  obtain ⟨bs, hbs⟩ := henter
  by_cases hname : IsName n
  · exact Specifier.exists_edit_of_not_same hdir.goesOn hroot.goesOn
      (hbs.trans ⟨List.forall_mem_singleton.2 hname, components_join_name _ hname⟩) (by simp)
      hproper (not_same_of_file hd hroot h hs htc hn hname)
  · -- it gets the name of a step up, which is the new name of the unit
    obtain ⟨rest, rfl, rfl⟩ := MovedUnit.exists_rest_of_relocatedName? hn
    have hempty : x.unit.newName ≠ "" := by
      rw [hu]
      exact (text_newName hd hroot.goesOn hc).1
    obtain ⟨hdots, rfl⟩ := eq_dots_of_append hname hempty hdot
      (text_newName_append hd hroot h ha).2
    rw [String.append_empty] at ha
    obtain ⟨as, z, hcut⟩ :=
      (List.eq_nil_or_concat' (cutText '/' r.specifier)).resolve_left (cutText_ne_nil _ _)
    refine Specifier.exists_edit_of_step_up hdir.goesOn hroot.goesOn hbs ?_ hcut
      (isName_last_piece hs hmatches hcut ha)
    rw [hdots, components_join (hroot.goesOn.trans hbs).text_ne_empty (by decide)]
    rfl

/-- **A reference that leads to the unit is edited**, unless the new name is a dot. -/
theorem exists_dependentEdit (hd : d.WellFormed) (hroot : p.root.Straight rs)
    (h : make d p old new = .ok x) (hf : f ∈ x.index.scanned) (hr : r ∈ Index.naming x.unit f)
    (hdoubled : ¬ Specifier.Doubled r.specifier) (hdot : x.unit.newName ≠ ".")
    (hm : x.unit.relocate (targetOf p (p.directoryOf f.path) r) = some m) :
    ∃ e, x.dependentEdit? f.path r = some e ∧ e.target = f.path := by
  obtain ⟨hrefs, hrelative, hmatches⟩ := Index.mem_naming.1 hr
  obtain ⟨s, hs⟩ := (sound_of_make hd h).shows hf
  obtain ⟨-, -, -, -, -, -, hproject, -⟩ := make_eq_ok h
  have hl := leads_of_scanned hd hroot h hf hrelative hdoubled hm
  obtain ⟨e, he⟩ : ∃ e, specifierEdit? f.path r
      (Specifier.respecify r.specifier (p.directoryOf f.path) m p.root) = some e := by
    cases hstyle : x.unit.style with
    | directory => exact hl.exists_edit_of_directory hd hroot h hstyle
    | file => exact hl.exists_edit_of_file hd hroot h hstyle hmatches hdot
  refine ⟨e, ?_, (specifierEdit?_eq_some he (respecify_ne_empty _ _ _ _)
    (hs.standsIn hrefs).stop_eq).1⟩
  unfold Preparation.dependentEdit?
  rw [hproject, hm]
  exact he

end

end Preparation

end ModuleMove
