import ModuleMove.Proofs.Plan.Probed
import ModuleMove.Proofs.Plan.Renamed

/-!
# LOSSLESS MOVES — no file is lost, overwritten or left behind

What is renamed is decided before anything is done.  No two renames share a place, nothing is at a
new place, and whatever travels by its path is renamed, itself or with its directory.  Once the
renames have been made, every file of the old tree is where they have taken it, and the tree has no
other files.  All this holds however the paths are spelled: an extension may have slashes in it, and
a new name may be one that only dots are left of.

Main statements:
  * `Preparation.pairwise_moves` — no two renames share a place.
  * `Preparation.exists_move_of_relocate` — what travels is renamed to where it is relocated.
  * `Preparation.goes_of_make` — each file is where the renames have taken it, and there are no
    others.
  * `moves_lossless` — all of this for a plan.
-/

namespace ModuleMove

open ModuleMove.Path ModuleMove.MovedUnit

/-! ## §1. Paths and places. -/

namespace Path

theorem isAbsolute_of_parent? {p q : Path} (hp : p.isAbsolute = true) (h : p.parent? = some q) :
    q.isAbsolute = true := by
  obtain ⟨c, hc, hcomp⟩ := components_of_parent? h
  obtain ⟨cs, hcs⟩ := isAbsolute_iff_components.1 hp
  rw [hcs] at hcomp
  rw [isAbsolute_iff_components]
  cases hq : q.components with
  | nil =>
    rw [hq] at hcomp
    exact absurd (List.cons.inj hcomp).1.symm hc
  | cons a as =>
    rw [hq] at hcomp
    exact ⟨as, by rw [(List.cons.inj hcomp).1]⟩

/-- A piece of a path stands for one component at most, which tells the piece. -/
theorem componentOf?_inj {s t : String} (hs : s ≠ "") (ht : t ≠ "")
    (h : componentOf? s = componentOf? t) : s = t := by
  have hnone : ∀ {u : String}, u ≠ "" → componentOf? u = none → u = "." := by
    intro u hu hc
    unfold componentOf? at hc
    split at hc
    · exact absurd rfl hu
    · rfl
    · cases hc
    · cases hc
  cases hc : componentOf? s with
  | none => rw [hnone hs hc, hnone ht (h.symm.trans hc)]
  | some c =>
    exact (componentOf?_eq_some hc).1.symm.trans (componentOf?_eq_some (h.symm.trans hc)).1

/-- Behind a path, texts without slashes are told apart. -/
theorem join_inj {q : Path} {s t : String} (hq : q.text ≠ "") (hs : s ≠ "") (ht : t ≠ "")
    (hs' : '/' ∉ s.toList) (ht' : '/' ∉ t.toList)
    (h : (q.join ⟨s⟩).same (q.join ⟨t⟩) = true) : s = t := by
  have hjoin : ∀ {u : String}, '/' ∉ u.toList →
      (q.join ⟨u⟩).components = q.components ++ (componentOf? u).toList := by
    intro u hu
    rw [components_join hq (isAbsolute_of_slash_not_mem hu)]
    show _ ++ (cutText '/' u).filterMap componentOf? = _
    rw [cutText_of_not_mem hu]
    cases hc : componentOf? u <;> simp [hc]
  rw [same_iff, hjoin hs', hjoin ht'] at h
  have hlist := List.append_cancel_left h
  refine componentOf?_inj hs ht ?_
  cases hc : componentOf? s <;> cases hc' : componentOf? t <;> simp_all

end Path

namespace Disk

variable {d e : Disk} {q : Path} {G : List String} {s : String}

/-- A name leads on from a directory that may have to be made. -/
theorem Enters.join (h : d.Enters q G) (hs : IsName s) : d.Enters (q.join ⟨s⟩) (G ++ [s]) := by
  obtain ⟨habs, cs, ks, ns, hq, hcs, hns, rfl⟩ := h
  refine ⟨isAbsolute_join habs s, cs, ks, ns ++ [s], ?_, hcs, ?_, by rw [List.append_assoc]⟩
  · rw [components_join_name q hs, hq, List.map_append, List.append_assoc]
    rfl
  · exact List.forall_mem_append.2 ⟨hns, List.forall_mem_singleton.2 hs⟩

/-- **Where a delta leads from a directory that is there.** -/
theorem exists_enters_applyTo {δ : Delta} (habs : q.isAbsolute = true)
    (hq : ∃ ks, d.LeadsTo q.components ks) (ha : ∀ s ∈ δ.added, IsName s) :
    ∃ G, d.Enters (δ.applyTo q) G := by
  -- above a directory there are directories, and names lead on from the last of them
  have hup : ∀ (l : List String) (q : Path), q.isAbsolute = true →
      (∃ ks, d.LeadsTo q.components ks) →
      ∃ G, d.Enters (l.foldl (fun q _ => q.parent?.getD q) q) G := by
    intro l
    induction l with
    | nil =>
      rintro q hq ⟨ks, hks⟩
      exact ⟨ks, hq, q.components, ks, [], by simp, hks, by simp, by simp⟩
    | cons a l ih =>
      intro q hq hks
      rw [List.foldl_cons]
      cases hp : q.parent? with
      | none => exact ih q hq hks
      | some r =>
        refine ih r (isAbsolute_of_parent? hq hp) ?_
        obtain ⟨c, -, hc⟩ := components_of_parent? hp
        obtain ⟨ks, hks⟩ := hks
        rw [hc] at hks
        exact hks.of_append
  have hdown : ∀ (l : List String), (∀ s ∈ l, IsName s) → ∀ (q : Path) (G : List String),
      d.Enters q G → ∃ G', d.Enters (l.foldl (fun q s => q.join ⟨s⟩) q) G' := by
    intro l
    induction l with
    | nil => exact fun _ q G hq => ⟨G, hq⟩
    | cons a l ih =>
      intro hl q G hq
      obtain ⟨ha, hl⟩ := List.forall_mem_cons.1 hl
      exact ih hl _ _ (hq.join ha)
  obtain ⟨G, hG⟩ := hup δ.removed q habs hq
  exact hdown δ.added ha _ G hG

/-- A file is an entry of the directory that it is in. -/
theorem exists_mem_of_hasFile {f : Path} {es : List (String × Node)} (h : d.list q = .ok es)
    (hf : q.GoesOn f [s]) (hfile : d.hasFile f = true) : ∃ c, (s, Node.file c) ∈ es := by
  obtain ⟨as, has⟩ := locate_of_list h
  obtain ⟨pl, c, hl⟩ := hasFile_iff.1 hfile
  obtain ⟨-, hfind⟩ := place_of_goesOn has hf hl
  refine ⟨c, Node.mem_of_child? ?_⟩
  change (Node.child? s es).bind some = _ at hfind
  rwa [Option.bind_fun_some] at hfind

/-- Under a name that nothing is at, no file is found in the directory or below the name. -/
theorem look?_of_has_join {t : String} (hr : d.Enters q G) (hd : d.Rooted) (ht : IsName t)
    (h : d.has (q.join ⟨t⟩) = false) : d.top.look? (G ++ [t]) = none := by
  rw [Node.look?_eq_none]
  by_contra hne
  obtain ⟨n, hn⟩ := Option.ne_none_iff_exists'.1 hne
  have hl := locate_join hr hd.keeps ht hn
  unfold has node? at h
  rw [hl] at h
  cases h

/-- A straight path names the place of its names, whatever has been made. -/
theorem nameAt_of_straight {ks place : List String} {t : String} (hd : d.Rooted) (he : d.Keeps e)
    (hq : q.Straight (ks ++ [s])) (hn : e.nameAt q = .ok (place, some t)) :
    place = ks ∧ t = s := by
  obtain ⟨r, -, hr⟩ := hq.exists_parent
  have hcut : cutText '/' q.text = ("" :: ks) ++ [s] := by
    rw [hq.cutText, if_neg (by simp)]
    rfl
  have hc : q.components = r.components ++ [.name s] := by
    rw [hq.components, hr.components, List.map_append]
    rfl
  exact nameAt_of_enters (enters_of_straight hd hr) he hq.isAbsolute hcut hc (hq.1 s (by simp)) hn

/-- What is seen under the names of a straight path is found there. -/
theorem exists_locate_straight {ks : List String} (hd : d.Rooted) (hq : q.Straight ks)
    (h : d.top.look? ks ≠ none) : ∃ n, d.locate q = .ok (ks, n) := by
  obtain ⟨n, hn⟩ := Option.ne_none_iff_exists'.1 (mt Node.look?_eq_none.2 h)
  exact ⟨n, (locate_straight hd hq).2 ⟨rfl, hn⟩⟩

/-- Something is seen at all places above a file. -/
theorem look?_of_fileAt {ks rest : List String} {c : Content} (h : d.fileAt (ks ++ rest) = some c) :
    d.top.look? ks ≠ none := by
  rw [fileAt_eq_some] at h
  cases rest with
  | nil =>
    rw [List.append_nil] at h
    rw [h]
    simp
  | cons k rest =>
    rw [look?_of_append (by rw [h]; simp)]
    simp

end Disk

namespace Preparation

variable {d : Disk} {p : Project} {old new : Path} {x : Preparation} {rs : List String}

/-! ## §2. A file and its companions. -/

/-- The path of a checked unit begins at the root of the tree. -/
theorem isAbsolute_of_check {old' new' : Path} {δ : Delta} (hroot : p.root.Straight rs)
    (h : check d p old new = .ok (old', new', δ)) : old'.isAbsolute = true := by
  obtain ⟨added, hl, -⟩ := check_eq_ok h
  obtain ⟨ns, hns⟩ := p.straight_absolute hroot old
  rcases locateUnit_eq_ok hl with ⟨-, rfl⟩ | ⟨ext, -, rfl, -⟩
  · exact hns.isAbsolute
  · refine isAbsolute_iff.2 ⟨joinText '/' ns ++ "." ++ ext, ?_⟩
    unfold Path.withExtension
    rw [hns.2]
    simp only [String.append_assoc]

/-- The directory that a file leaves is there, and the one that it enters may have to be made. -/
theorem exists_enters_of_file (hroot : p.root.Straight rs) (h : make d p old new = .ok x)
    (hs : x.unit.style = .file) : ∃ es as G, d.locate x.unit.oldParent = .ok (as, .directory es) ∧
      d.list x.unit.oldParent = .ok es ∧ d.Enters x.unit.oldParent as ∧
      d.Enters x.unit.newParent G := by
  obtain ⟨es, hes, -⟩ := list_of_make h hs
  obtain ⟨as, has⟩ := Disk.locate_of_list hes
  obtain ⟨old', new', δ, hc, hu, -⟩ := make_eq_ok h
  obtain ⟨added, -, hnew, hδ, -⟩ := check_eq_ok hc
  have habs : x.unit.oldParent.isAbsolute = true := by
    rw [hu]
    show (old'.parent?.getD p.root).isAbsolute = true
    cases hp : old'.parent? with
    | none => exact hroot.isAbsolute
    | some q => exact isAbsolute_of_parent? (isAbsolute_of_check hroot hc) hp
  have hnames : ∀ s ∈ δ.added, IsName s := by
    refine isName_of_mem_added hroot ?_ hδ
    rw [hnew]
    exact isAbsolute_completed hroot new added
  obtain ⟨G, hG⟩ := Disk.exists_enters_applyTo habs ⟨as, Disk.leadsTo_of_locate habs has⟩ hnames
  refine ⟨es, as, G, has, hes, Disk.enters_of_locate habs has, ?_⟩
  have henter : x.unit.newParent = δ.applyTo x.unit.oldParent := by
    rw [hu]
    rfl
  rw [henter]
  exact hG

/-- The new name of a unit, with the rest of a name behind it, is not empty and has no slash in
    it. -/
theorem text_newName_append (hd : d.WellFormed) (hroot : p.root.Straight rs)
    (h : make d p old new = .ok x) {stem rest : String} (hname : IsName (stem ++ rest)) :
    x.unit.newName ++ rest ≠ "" ∧ '/' ∉ (x.unit.newName ++ rest).toList := by
  obtain ⟨old', new', δ, hc, hu, -⟩ := make_eq_ok h
  obtain ⟨h0, hslash⟩ := text_newName hd hroot.goesOn hc
  rw [← hu] at h0 hslash
  refine ⟨fun hempty => h0 (String.append_eq_empty_iff.1 hempty).1, ?_⟩
  rw [String.toList_append, List.mem_append]
  refine fun hor => hor.elim hslash fun hr => hname.2.2.2 ?_
  rw [String.toList_append]
  exact List.mem_append_right _ hr

/-- The new name of an entry is not empty and has no slash in it. -/
theorem text_entryName? (hd : d.WellFormed) (hroot : p.root.Straight rs)
    (h : make d p old new = .ok x) {e : String × Node} {t : String} (he : IsName e.1)
    (ht : x.unit.entryName? e = some t) : t ≠ "" ∧ '/' ∉ t.toList := by
  obtain ⟨rest, hrest, rfl⟩ := exists_rest_of_entryName? ht
  exact text_newName_append hd hroot h (hrest ▸ he)

/-- **No two renames share a place.** -/
theorem pairwise_moves (hd : d.WellFormed) (hroot : p.root.Straight rs)
    (h : make d p old new = .ok x) :
    x.plan.moves.Pairwise fun m k => m.1.same k.1 = false ∧ m.2.same k.2 = false := by
  have hmoves := (moves_of_make h).1
  cases hs : x.unit.style with
  | directory =>
    rw [moves_of_directory hs hmoves]
    exact List.pairwise_singleton ..
  | file =>
    obtain ⟨es, as, G, has, hes, hleave, henter⟩ := exists_enters_of_file hroot h hs
    have hsymm : ∀ {a b : Path × Path}, a.1.same b.1 = false ∧ a.2.same b.2 = false →
        b.1.same a.1 = false ∧ b.2.same a.2 = false := by
      intro a b hab
      simp only [Bool.eq_false_iff] at hab ⊢
      exact ⟨fun h => hab.1 (same_symm h), fun h => hab.2 (same_symm h)⟩
    refine pairwise_moves_of_file hsymm hs hes hmoves (Disk.wellFormed_of_locate hd has).1 ?_
    -- entries of different names get different names, and a name is told from the path it ends
    intro e he g hg hne t ht s hgs
    have hen := isName_of_mem_list hd hes he
    have hgn := isName_of_mem_list hd hes hg
    obtain ⟨ht0, htslash⟩ := text_entryName? hd hroot h hen ht
    obtain ⟨hs0, hsslash⟩ := text_entryName? hd hroot h hgn hgs
    have hne' : t ≠ s := fun hts => hne (entryName?_inj ht (hts ▸ hgs))
    have hleave0 := Disk.text_ne_empty_of_isAbsolute hleave.isAbsolute
    have henter0 := Disk.text_ne_empty_of_isAbsolute henter.isAbsolute
    simp only [Bool.eq_false_iff]
    exact ⟨fun hsame => hne (join_inj hleave0 hen.1 hgn.1 hen.2.2.2 hgn.2.2.2 hsame),
      fun hsame => hne' (join_inj henter0 ht0 hs0 htslash hsslash hsame)⟩

/-- **What is renamed with a file**: files of its directory, which are there and get names in the
    other one under which nothing is. -/
theorem exists_renamesOf (hd : d.WellFormed) (hroot : p.root.Straight rs)
    (h : make d p old new = .ok x) (hs : x.unit.style = .file) :
    ∃ as G xs, d.Enters x.unit.oldParent as ∧ d.Enters x.unit.newParent G ∧
      x.plan.moves = Disk.renamesOf x.unit.oldParent x.unit.newParent xs ∧
      d.Renamable as G xs := by
  obtain ⟨es, as, G, has, hes, hleave, henter⟩ := exists_enters_of_file hroot h hs
  obtain ⟨-, hfree⟩ := moves_of_make h
  obtain ⟨es', hes', hmem⟩ := list_of_make h hs
  obtain rfl := Except.ok.inj (hes.symm.trans hes')
  have hpair := pairwise_moves hd hroot h
  -- each rename is that of an entry, so that they are given by pairs of names
  obtain ⟨xs, hxs, hentries⟩ : ∃ xs, x.plan.moves
      = Disk.renamesOf x.unit.oldParent x.unit.newParent xs ∧
      ∀ y ∈ xs, ∃ n, (y.1, n) ∈ es ∧ x.unit.entryName? (y.1, n) = some y.2 := by
    refine Disk.exists_renamesOf_eq fun m hm => ?_
    obtain ⟨e, he, t, ht, rfl⟩ := (hmem m).1 hm
    exact ⟨(e.1, t), ⟨e.2, he, ht⟩, rfl⟩
  refine ⟨as, G, xs, hleave, henter, hxs, ?_⟩
  rw [hxs, Disk.renamesOf, List.pairwise_map] at hpair
  rw [hxs] at hfree
  refine ⟨fun y hy => ?_, fun y hy => ?_, fun y hy hname => ?_, ?_, ?_⟩
  · obtain ⟨n, hn, ht⟩ := hentries y hy
    exact text_entryName? hd hroot h (isName_of_mem_list hd hes hn) ht
  · obtain ⟨n, hn, ht⟩ := hentries y hy
    obtain ⟨⟨c, rfl⟩, -⟩ := entryName?_eq_some ht
    refine ⟨isName_of_mem_list hd hes hn, c, ?_⟩
    rw [Disk.fileAt_eq_some, Node.look?_eq_file, Node.find?_append, Disk.find?_of_locate has]
    show (Node.child? y.1 es).bind some = _
    rw [Node.child?_of_mem hn (Disk.wellFormed_of_locate hd has).1]
    rfl
  · have hhas := hfree (x.unit.oldParent.join ⟨y.1⟩, x.unit.newParent.join ⟨y.2⟩)
      (List.mem_map.2 ⟨y, hy, rfl⟩)
    exact Disk.look?_of_has_join henter hd.rooted hname hhas
  · refine List.pairwise_map.2 (hpair.imp fun {a b} hab heq => ?_)
    rw [heq, same_refl] at hab
    cases hab.1
  · refine List.pairwise_map.2 (hpair.imp fun {a b} hab heq => ?_)
    rw [heq, same_refl] at hab
    cases hab.2

/-! ## §3. What travels. -/

/-- **What travels is renamed to where it is relocated**, itself or with its directory. -/
theorem exists_move_of_relocate (hd : d.WellFormed) (hroot : p.root.Straight rs)
    (h : make d p old new = .ok x) {f m : Path} {ns : List String} (hf : top.GoesOn f ns)
    (hfile : d.hasFile f = true) (hm : x.unit.relocate f = some m) :
    ∃ mv ∈ x.plan.moves, ∃ rest, mv.1.GoesOn f rest ∧ mv.2.GoesOn m rest ∧
      (x.unit.style = .file → rest = [] ∧ mv.2 = m) := by
  cases hs : x.unit.style with
  | file =>
    obtain ⟨g, t, hg, hcomp, ht, rfl⟩ := relocate_of_file hs hm
    obtain ⟨es, hes, hmem⟩ := list_of_make h hs
    -- the file is an entry of the directory that has been listed
    obtain ⟨c, hentry⟩ :=
      Disk.exists_mem_of_hasFile hes ⟨List.forall_mem_singleton.2 hg, hcomp⟩ hfile
    have hname : x.unit.entryName? (g, .file c) = some t := by
      show (x.unit.relocatedName? g).orElse _ = _
      rw [ht]
      rfl
    refine ⟨_, (hmem _).2 ⟨_, hentry, t, hname, rfl⟩, [], ⟨by simp, ?_⟩, ⟨by simp, by simp⟩,
      fun _ => ⟨rfl, rfl⟩⟩
    rw [components_join_name _ hg, hcomp]
    simp
  | directory =>
    obtain ⟨cs, hcomp, hm⟩ := relocate_of_directory hs hm
    obtain ⟨as, a, gs, hold, hmodule, -⟩ := exists_straight_of_directory hd hroot h hs
    obtain ⟨rest, rfl, hrest⟩ := GoesOn.of_append hold.goesOn hf hcomp
    refine ⟨(x.unit.old, x.unit.newModule), ?_, rest, hrest, ⟨hrest.1, ?_⟩, fun h => by cases h⟩
    · rw [moves_of_directory hs (moves_of_make h).1]
      exact List.mem_singleton_self _
    · by_cases h0 : rest = []
      · rw [if_pos (by rw [h0]; rfl)] at hm
        rw [hm, h0]
        simp
      · rw [if_neg (by simpa using h0), textsOf_map_name] at hm
        rw [hm, components_join hmodule.goesOn.text_ne_empty (isAbsolute_joinText hrest.1 h0),
          Specifier.inner_names hrest.1]

end Preparation

/-! ## §4. Files before and after. -/

/-- Where a file is before renames and after them: it is carried from an old place to the new one,
    keeping the names below it, or it lies at none of the old places and stays. -/
inductive Disk.Goes (d e : Disk) (ms : List (Path × Path)) : List String → List String → Prop where
  /-- It lies at an old place or below it. -/
  | carried {m : Path × Path} {source goal : List String} {n n' : Node} (hm : m ∈ ms)
      (hsource : d.locate m.1 = .ok (source, n)) (hgoal : e.locate m.2 = .ok (goal, n'))
      (rest : List String) : Goes d e ms (source ++ rest) (goal ++ rest)
  /-- It lies at no old place and below none. -/
  | stayed (ks : List String)
      (h : ∀ m ∈ ms, ∀ source n, d.locate m.1 = .ok (source, n) → ¬ source <+: ks) :
      Goes d e ms ks ks

namespace Preparation

variable {d e : Disk} {p : Project} {old new : Path} {x : Preparation} {rs : List String}

/-- Renames that have been made were made one after the other. -/
theorem renameEach_of_renameAll {ms : List (Path × Path)} {u : Except RenameTrouble Unit}
    (h : renameAll d ms = (u, e)) (hu : u = .ok ()) : renameEach d ms = (.ok (), e) := by
  subst hu
  unfold renameAll at h
  split at h
  · cases h
  · exact h

section

variable {as G : List String} {q r : Path} {xs : List (String × String)} {y : String × String}
  {c : Content}

/-- A file that is to be renamed is found where it is. -/
theorem exists_locate_source (hd : d.Rooted) (hq : d.Enters q as) (hxs : d.Renamable as G xs)
    (hy : y ∈ xs) : ∃ n, d.locate (q.join ⟨y.1⟩) = .ok (as ++ [y.1], n) := by
  obtain ⟨hname, c, hc⟩ := hxs.source y hy
  exact ⟨_, Disk.locate_join hq hd.keeps hname (Node.look?_eq_file.1 (Disk.fileAt_eq_some.1 hc))⟩

/-- A file that has been renamed is carried to its new name. -/
theorem goes_of_mem (hd : d.Rooted) (hq : d.Enters q as) (hr : d.Enters r G)
    (hxs : d.Renamable as G xs) (hkeeps : d.Keeps e) (hy : y ∈ xs) (hname : IsName y.2)
    (hc : e.fileAt (G ++ [y.2]) = some c) :
    d.Goes e (Disk.renamesOf q r xs) (as ++ [y.1]) (G ++ [y.2]) := by
  obtain ⟨n, hn⟩ := exists_locate_source hd hq hxs hy
  have hmem : (q.join ⟨y.1⟩, r.join ⟨y.2⟩) ∈ Disk.renamesOf q r xs := List.mem_map.2 ⟨y, hy, rfl⟩
  have hgoal := Disk.locate_join hr hkeeps hname (Node.look?_eq_file.1 (Disk.fileAt_eq_some.1 hc))
  have := Disk.Goes.carried hmem hn hgoal []
  rwa [List.append_nil, List.append_nil] at this

/-- A file that is not renamed lies below none that is, since these are files, and so it stays. -/
theorem goes_of_ne {ks : List String} (hd : d.Rooted) (hq : d.Enters q as)
    (hxs : d.Renamable as G xs) (hc : d.fileAt ks = some c) (hne : ∀ y ∈ xs, ks ≠ as ++ [y.1]) :
    d.Goes e (Disk.renamesOf q r xs) ks ks := by
  refine .stayed ks fun m hm source n hl => ?_
  obtain ⟨y, hy, rfl⟩ := List.mem_map.1 hm
  obtain ⟨n', hn'⟩ := exists_locate_source hd hq hxs hy
  rw [hn'] at hl
  obtain ⟨rfl, -⟩ := Prod.mk.inj (Except.ok.inj hl)
  rintro ⟨rest, rfl⟩
  obtain ⟨-, c', hc'⟩ := hxs.source y hy
  cases rest with
  | nil => exact hne y hy (List.append_nil _)
  | cons k rest =>
    rw [Disk.fileAt_below hc'] at hc
    cases hc

/-- Where the renames of a file and its companions have taken each file. -/
theorem goes_of_file (hd : d.Rooted) (hq : d.Enters q as) (hr : d.Enters r G)
    (hxs : d.Renamable as G xs) (he : renameEach d (Disk.renamesOf q r xs) = (.ok (), e)) :
    (∀ ks c, d.fileAt ks = some c →
      ∃ js, d.Goes e (Disk.renamesOf q r xs) ks js ∧ e.fileAt js = some c) ∧
    ∀ js c, e.fileAt js = some c →
      ∃ ks, d.Goes e (Disk.renamesOf q r xs) ks js ∧ d.fileAt ks = some c := by
  obtain ⟨hkeeps, harrived, hrest⟩ := Disk.fileAt_of_renameEach hxs hq hr (hxs.awaits hd) he
  constructor
  · intro ks c hc
    by_cases hsource : ∃ y ∈ xs, ks = as ++ [y.1]
    · obtain ⟨y, hy, rfl⟩ := hsource
      obtain ⟨hname, harrived⟩ := harrived y hy
      have hnew := harrived.trans hc
      exact ⟨_, goes_of_mem hd hq hr hxs hkeeps hy hname hnew, hnew⟩
    · have hne : ∀ y ∈ xs, ks ≠ as ++ [y.1] := fun y hy heq => hsource ⟨y, hy, heq⟩
      refine ⟨ks, goes_of_ne hd hq hxs hc hne, ?_⟩
      rw [(hrest ks fun y hy heq => ?_).2 hne, hc]
      -- nothing is at the new places
      rw [heq, Disk.fileAt_eq_some, hxs.free y hy (harrived y hy).1] at hc
      cases hc
  · intro js c hc
    by_cases hgoal : ∃ y ∈ xs, js = G ++ [y.2]
    · obtain ⟨y, hy, rfl⟩ := hgoal
      obtain ⟨hname, harrived⟩ := harrived y hy
      exact ⟨_, goes_of_mem hd hq hr hxs hkeeps hy hname hc, harrived.symm.trans hc⟩
    · have hother := hrest js fun y hy heq => hgoal ⟨y, hy, heq⟩
      by_cases hsource : ∃ y ∈ xs, js = as ++ [y.1]
      · rw [hother.1 hsource] at hc
        cases hc
      · have hne : ∀ y ∈ xs, js ≠ as ++ [y.1] := fun y hy heq => hsource ⟨y, hy, heq⟩
        have hc' := (hother.2 hne).symm.trans hc
        exact ⟨js, goes_of_ne hd hq hxs hc' hne, hc'⟩

end

/-- **What the rename of a directory has done** if nothing was at its new place. -/
theorem replaced_of_straight {as gs : List String} {a b : String} {o q : Path} (hd : d.Rooted)
    (ho : o.Straight (as ++ [a])) (hq : q.Straight (gs ++ [b])) (hfree : d.has q = false)
    (he : renameEach d [(o, q)] = (.ok (), e)) : d.Replaced e (as ++ [a]) (gs ++ [b]) := by
  have hinto : renameInto d o q = (.ok (), e) := by
    rw [renameEach] at he
    split at he
    · cases he
    · rename_i hstep
      rw [hstep]
      exact congrArg (Prod.mk _) (Prod.mk.inj he).2
  obtain ⟨d₁, ns, a', ms, b', hwide, hns, hms, hreplaced, -⟩ :=
    Disk.replaced_of_renameInto hd hinto
  obtain ⟨rfl, rfl⟩ := Disk.nameAt_of_straight hd hwide.keeps ho hns
  obtain ⟨rfl, rfl⟩ := Disk.nameAt_of_straight hd hwide.keeps hq hms
  refine hreplaced fun rest => Option.eq_none_iff_forall_ne_some.2 fun c hc => ?_
  rw [Disk.has_straight hd hq] at hfree
  exact Disk.look?_of_fileAt hc (by simpa using hfree)

/-- Where the rename of a directory has taken each file. -/
theorem goes_of_directory {as gs : List String} {a b : String} {o q : Path} (hd : d.Rooted)
    (ho : o.Straight (as ++ [a])) (hq : q.Straight (gs ++ [b]))
    (hsource : d.top.look? (as ++ [a]) ≠ none) (hfree : d.has q = false)
    (he : renameEach d [(o, q)] = (.ok (), e)) :
    (∀ ks c, d.fileAt ks = some c → ∃ js, d.Goes e [(o, q)] ks js ∧ e.fileAt js = some c) ∧
    ∀ js c, e.fileAt js = some c → ∃ ks, d.Goes e [(o, q)] ks js ∧ d.fileAt ks = some c := by
  have hreplaced := replaced_of_straight hd ho hq hfree he
  obtain ⟨n, hn⟩ := Disk.exists_locate_straight hd ho hsource
  -- the new place is there if a file is seen at it or below it
  have hcarried : ∀ rest c, e.fileAt (gs ++ [b] ++ rest) = some c →
      d.Goes e [(o, q)] (as ++ [a] ++ rest) (gs ++ [b] ++ rest) := by
    intro rest c hc
    obtain ⟨n', hn'⟩ := Disk.exists_locate_straight hreplaced.rooted hq (Disk.look?_of_fileAt hc)
    exact .carried (List.mem_singleton_self _) hn hn' rest
  have hstayed : ∀ ks, ¬ as ++ [a] <+: ks → d.Goes e [(o, q)] ks ks := by
    intro ks hks
    refine .stayed ks fun m hm source n' hl => ?_
    rw [List.mem_singleton.1 hm, hn] at hl
    obtain ⟨rfl, -⟩ := Prod.mk.inj (Except.ok.inj hl)
    exact hks
  constructor
  · intro ks c hc
    by_cases hks : as ++ [a] <+: ks
    · obtain ⟨rest, rfl⟩ := hks
      have hnew := (hreplaced.arrived rest).trans hc
      exact ⟨_, hcarried rest c hnew, hnew⟩
    · refine ⟨ks, hstayed ks hks, ?_⟩
      rw [hreplaced.kept ks hks, hc]
      rintro ⟨rest, rfl⟩
      rw [Disk.has_straight hd hq] at hfree
      exact Disk.look?_of_fileAt hc (by simpa using hfree)
  · intro js c hc
    by_cases hjs : gs ++ [b] <+: js
    · obtain ⟨rest, rfl⟩ := hjs
      exact ⟨_, hcarried rest c hc, (hreplaced.arrived rest).symm.trans hc⟩
    · by_cases hks : as ++ [a] <+: js
      · obtain ⟨rest, rfl⟩ := hks
        rw [hreplaced.left] at hc
        cases hc
      · exact ⟨js, hstayed js hks, (hreplaced.kept js hks hjs).symm.trans hc⟩

/-- **Each file is where the renames have taken it, and there are no others.** -/
theorem goes_of_make (hd : d.WellFormed) (hroot : p.root.Straight rs)
    (h : make d p old new = .ok x) (he : renameAll d x.plan.moves = (.ok (), e)) :
    (∀ ks c, d.fileAt ks = some c →
      ∃ js, d.Goes e x.plan.moves ks js ∧ e.fileAt js = some c) ∧
    ∀ js c, e.fileAt js = some c →
      ∃ ks, d.Goes e x.plan.moves ks js ∧ d.fileAt ks = some c := by
  have he := renameEach_of_renameAll he rfl
  obtain ⟨hmoves, hfree⟩ := moves_of_make h
  cases hs : x.unit.style with
  | file =>
    obtain ⟨as, G, xs, hleave, henter, hxs, hrenamable⟩ := exists_renamesOf hd hroot h hs
    rw [hxs] at he ⊢
    exact goes_of_file hd.rooted hleave henter hrenamable he
  | directory =>
    obtain ⟨as, a, gs, hold, hmodule, hdir, -⟩ := exists_straight_of_directory hd hroot h hs
    rw [moves_of_directory hs hmoves] at he hfree ⊢
    have hhas := hfree (x.unit.old, x.unit.newModule) (List.mem_singleton_self _)
    refine goes_of_directory hd.rooted hold hmodule ?_ hhas he
    rw [(Disk.hasDirectory_straight hd.rooted hold).1 hdir]
    simp

end Preparation

/-- **A move loses and overwrites nothing, and takes along all that travels**: no two renames of its
    plan share a place, nothing is at a new place, and a file that travels is renamed to where it is
    relocated, itself or with its directory.  If the renames succeed, each file of the old tree is
    found with its content where they have taken it or where it was, and no other file is found. -/
theorem moves_lossless {d : Disk} {root : Path} {c : Config} {old new : Path} {pl : Plan}
    (hd : d.WellFormed) (habs : root.isAbsolute = true)
    (h : plan d (.ofRoot root c) old new = .ok pl) :
    pl.moves.Pairwise (fun m k => m.1.same k.1 = false ∧ m.2.same k.2 = false) ∧
    (∀ m ∈ pl.moves, d.has m.2 = false) ∧
    (∀ f ns m, top.GoesOn f ns → d.hasFile f = true →
      (MovedUnit.make d (.ofRoot root c) pl.old pl.new pl.delta).relocate f = some m →
      ∃ mv ∈ pl.moves, ∃ rest, mv.1.GoesOn f rest ∧ mv.2.GoesOn m rest ∧
        (pl.style = .file → rest = [] ∧ mv.2 = m)) ∧
    ∀ e, renameAll d pl.moves = (.ok (), e) →
      (∀ ks c, d.fileAt ks = some c → ∃ js, d.Goes e pl.moves ks js ∧ e.fileAt js = some c) ∧
      ∀ js c, e.fileAt js = some c → ∃ ks, d.Goes e pl.moves ks js ∧ d.fileAt ks = some c := by
  obtain ⟨x, hx, rfl⟩ := Preparation.plan_eq_ok h
  obtain ⟨rs, hroot⟩ := Project.straight_ofRoot habs c
  obtain ⟨-, -, hunit⟩ := Preparation.unit_of_make hx
  rw [hunit]
  exact ⟨Preparation.pairwise_moves hd hroot hx, (Preparation.moves_of_make hx).2,
    fun f ns m hf hfile hm => Preparation.exists_move_of_relocate hd hroot hx hf hfile hm,
    fun e he => Preparation.goes_of_make hd hroot hx he⟩

/-! ## A directory with files at two depths. -/

/-- A disk with a directory that holds files and another directory. -/
def shelfDisk : Disk where
  top := .directory [("lib", .directory [("data.json", .file (.text "1\n")),
    ("deep", .directory [("m.ts", .file (.text "import '../data.json';\n"))])])]
  here := []

theorem wellFormed_shelfDisk : shelfDisk.WellFormed := by
  refine ⟨?_, _, rfl⟩
  simp only [shelfDisk, Node.WellFormed, Node.AllWellFormed]
  decide

/-- The directory gets another name beside its old one, and the file deep in it travels. -/
theorem exists_plan_shelfDisk : ∃ pl,
    plan shelfDisk smallProject ⟨"lib"⟩ ⟨"lib/../shelf"⟩ = .ok pl ∧
      (pl.moves, (MovedUnit.make shelfDisk smallProject pl.old pl.new pl.delta).relocate
          ⟨"/lib/deep/m.ts"⟩)
        = ([(⟨"/lib"⟩, ⟨"/shelf"⟩)], some ⟨"/shelf/deep/m.ts"⟩) :=
  exists_plan_of_map (by decide +kernel)

/-- The file that travels is renamed with its directory, and what lies beside it is found with its
    content after the move as well. -/
theorem shelf_lossless : ∃ pl e, plan shelfDisk smallProject ⟨"lib"⟩ ⟨"lib/../shelf"⟩ = .ok pl ∧
    renameAll shelfDisk pl.moves = (.ok (), e) ∧ (∀ m ∈ pl.moves, shelfDisk.has m.2 = false) ∧
    (∃ mv ∈ pl.moves, ∃ rest, mv.1.GoesOn ⟨"/lib/deep/m.ts"⟩ rest ∧
      mv.2.GoesOn ⟨"/shelf/deep/m.ts"⟩ rest) ∧
    ∃ js, shelfDisk.Goes e pl.moves ["lib", "data.json"] js ∧ e.fileAt js = some (.text "1\n") := by
  obtain ⟨pl, hpl, heq⟩ := exists_plan_shelfDisk
  obtain ⟨hms, hm⟩ : _ ∧ _ := by simpa only [Prod.mk.injEq] using heq
  have hok : (renameAll shelfDisk pl.moves).1.isOk = true := by
    rw [hms]
    decide +kernel
  obtain ⟨-, hfree, htravels, hfiles⟩ := moves_lossless wellFormed_shelfDisk rfl hpl
  have hdeep : top.GoesOn ⟨"/lib/deep/m.ts"⟩ ["lib", "deep", "m.ts"] := by
    refine ⟨?_, rfl⟩
    unfold IsName
    decide
  obtain ⟨mv, hmv, rest, h1, h2, -⟩ := htravels _ _ _ hdeep rfl hm
  exact ⟨pl, _, hpl, eq_of_isOk hok, hfree, ⟨mv, hmv, rest, h1, h2⟩,
    (hfiles _ (eq_of_isOk hok)).1 _ _ rfl⟩

end ModuleMove
