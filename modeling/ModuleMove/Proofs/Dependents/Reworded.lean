import ModuleMove.Proofs.Dependents.Seen
import ModuleMove.Proofs.Disk.Write

/-!
# REWORDED SOURCES — a project has the same files when other texts stand in them

Which files are found is told by the shape of the disk and by what ignore files say.  The files that
are read for this have names without a dot, or with one in front only, and such a name is not that
of a source file.  So when nothing but texts of source files is different, the same files are found.

Main statements:
  * `Disk.Reworded.layerOf` — each directory brings the same ignore rules.
  * `exists_discover_of_reworded` — the same files are found, and the same are skipped.
-/

namespace ModuleMove

open ModuleMove.Path Discovery

/-- Only files with a dot in their names, behind the first character, differ in their contents. -/
structure Disk.Reworded (d e : Disk) : Prop where
  /-- The same places hold directories, and the same hold files. -/
  shape : d.SameShape e
  /-- Under other names the same is seen. -/
  look : ∀ dir name, '.' ∉ name.toList.tail →
    e.top.look? (dir ++ [name]) = d.top.look? (dir ++ [name])

namespace Disk

variable {d e : Disk} {p : Path}

theorem SameShape.symm (h : d.SameShape e) : e.SameShape d := ⟨h.1.symm, fun ks => (h.2 ks).symm⟩

theorem Reworded.symm (h : d.Reworded e) : e.Reworded d :=
  ⟨h.shape.symm, fun dir name hname => (h.look dir name hname).symm⟩

/-! ## §1. What is where. -/

theorem map_isDirectory_of_sameShape (h : d.SameShape e) (p : Path) :
    (e.node? p).map Node.isDirectory = (d.node? p).map Node.isDirectory := by
  have hpl := place_of_sameShape h p
  unfold node?
  cases hd : d.locate p with
  | error x =>
    cases he : e.locate p with
    | error y => rfl
    | ok s => rw [hd, he] at hpl; cases hpl
  | ok r =>
    cases he : e.locate p with
    | error y => rw [hd, he] at hpl; cases hpl
    | ok s =>
      rw [hd, he] at hpl
      have hkind := h.2 r.1
      rw [find?_of_locate hd, ← show s.1 = r.1 from Except.ok.inj hpl, find?_of_locate he] at hkind
      exact hkind

theorem has_of_sameShape (h : d.SameShape e) (p : Path) : e.has p = d.has p := by
  unfold has
  rw [← Option.isSome_map, map_isDirectory_of_sameShape h, Option.isSome_map]

theorem hasDirectory_of_sameShape (h : d.SameShape e) (p : Path) :
    e.hasDirectory p = d.hasDirectory p := by
  have hkind := map_isDirectory_of_sameShape h p
  unfold hasDirectory
  cases hd : d.node? p <;> cases he : e.node? p <;> simp_all

theorem hasFile_of_sameShape (h : d.SameShape e) (p : Path) : e.hasFile p = d.hasFile p := by
  have hkind := map_isDirectory_of_sameShape h p
  unfold hasFile
  cases hd : d.node? p <;> cases he : e.node? p <;> simp_all

/-! ## §2. Ignore rules. -/

/-- A path with a name at its end leads to a file of that name. -/
theorem place_of_name (hd : d.WellFormed) {cs : List Component} {k : String} {pl : List String}
    {c : Content} (hp : p.components = cs ++ [.name k]) (h : d.locate p = .ok (pl, .file c)) :
    ∃ dir, pl = dir ++ [k] := by
  obtain ⟨-, n, hn, hf⟩ := locate_eq_ok h
  have hf := follow_filter hf
  rw [filter_stepsOf, hp, List.filterMap_append] at hf
  obtain ⟨dir, -, -, hpl, -⟩ := follow_append_singleton_eq_file hd.top hn hf
  exact ⟨dir, hpl⟩

/-- The content of the file at a path. -/
def contentAt? (d : Disk) (p : Path) : Option Content := (d.node? p).bind Node.content?

theorem contentAt?_eq_some {c : Content} :
    d.contentAt? p = some c ↔ ∃ pl, d.locate p = .ok (pl, .file c) := by
  unfold contentAt? node?
  constructor
  · intro h
    obtain ⟨n, hn, hc⟩ := Option.bind_eq_some_iff.1 h
    obtain ⟨r, hr, rfl⟩ := Option.map_eq_some_iff.1 hn
    obtain ⟨pl, n⟩ := r
    cases n with
    | file x =>
      cases hc
      refine ⟨pl, ?_⟩
      cases hl : d.locate p with
      | error y => rw [hl] at hr; cases hr
      | ok s => rw [hl] at hr; rw [Option.some.inj hr]
    | directory es => cases hc
  · rintro ⟨pl, hl⟩
    rw [hl]
    rfl

theorem Reworded.contentAt? (h : d.Reworded e) (hd : d.WellFormed) (he : e.WellFormed)
    {cs : List Component} {k : String} (hp : p.components = cs ++ [.name k])
    (hk : '.' ∉ k.toList.tail) : e.contentAt? p = d.contentAt? p := by
  have hkeeps : ∀ {d e : Disk}, d.Reworded e → d.WellFormed → ∀ c, d.contentAt? p = some c →
      e.contentAt? p = some c := by
    intro d e h hd c hc
    obtain ⟨pl, hl⟩ := contentAt?_eq_some.1 hc
    obtain ⟨dir, rfl⟩ := place_of_name hd hp hl
    refine contentAt?_eq_some.2 ⟨_, locate_of_sameShape h.shape hl ?_⟩
    rw [h.look dir k hk]
    exact Node.look?_eq_file.2 (find?_of_locate hl)
  exact Option.ext fun c => ⟨hkeeps h.symm he c, hkeeps h hd c⟩

end Disk

namespace Ignore

variable {d e : Disk}

/-- The rules of what is read as one content. -/
theorem rulesIn_congr {m n : Option Node} (h : m.bind Node.content? = n.bind Node.content?) :
    rulesIn m = rulesIn n := by
  have hrules : ∀ o : Option Node, rulesIn o =
      match o.bind Node.content? with
      | some c => rulesOf true (unmarked (contentLines c))
      | none => ([], []) := by
    intro o
    cases o with
    | none => rfl
    | some n => cases n <;> rfl
  rw [hrules, hrules, h]

theorem firstLine?_congr {p : Path} (h : e.contentAt? p = d.contentAt? p) :
    firstLine? e p = firstLine? d p := by
  have hline : ∀ d : Disk,
      firstLine? d p = (d.contentAt? p).bind fun c => (contentLines c).head? := by
    intro d
    unfold firstLine? Disk.contentAt?
    cases d.node? p with
    | none => rfl
    | some n => cases n <;> rfl
  rw [hline, hline, h]

theorem sharedPlace?_congr (h : d.Reworded e) (hd : d.WellFormed) (he : e.WellFormed) (dir : Path)
    {m n : Option Node} (hgit : m.bind Node.content? = n.bind Node.content?) :
    sharedPlace? e dir m = sharedPlace? d dir n := by
  have hfirst : ∀ own : Path,
      firstLine? e (own.join ⟨"commondir"⟩) = firstLine? d (own.join ⟨"commondir"⟩) := fun own =>
    firstLine?_congr (h.contentAt? hd he (components_join_name own (by decide)) (by decide))
  have hshared : ∀ (d : Disk) (o : Option Node), sharedPlace? d dir o =
      match o.bind Node.content? with
      | some c => sharedPlace? d dir (some (.file c))
      | none => some (dir.join ⟨".git"⟩) := by
    intro d o
    cases o with
    | none => rfl
    | some n => cases n <;> rfl
  rw [hshared e, hshared d, hgit]
  cases n.bind Node.content? with
  | none => rfl
  | some c =>
    unfold sharedPlace?
    simp only [hfirst]

/-- The file with the patterns that a repository excludes has a name without a dot. -/
theorem components_join_exclude (dir : Path) : ∃ cs : List Component,
    (dir.join ⟨"info/exclude"⟩).components = cs ++ [.name "exclude"] := by
  by_cases hdir : dir.text = ""
  · refine ⟨[.name "info"], ?_⟩
    have hjoin : dir.join ⟨"info/exclude"⟩ = ⟨"info/exclude"⟩ := by
      unfold join
      rw [if_neg (by decide), if_pos (by rw [hdir]; rfl), hdir, String.empty_append]
    rw [hjoin]
    decide
  · refine ⟨dir.components ++ [.name "info"], ?_⟩
    rw [components_join hdir (by decide), List.append_assoc]
    rfl

/-- **Each directory brings the same ignore rules.** -/
theorem layerOf_congr (h : d.Reworded e) (hd : d.WellFormed) (he : e.WellFormed)
    {place : List String} {m n : Node} (hm : e.top.find? place = some m)
    (hn : d.top.find? place = some n) : layerOf e place m.entries = layerOf d place n.entries := by
  have hchild : ∀ {d : Disk} {n : Node}, d.top.find? place = some n → ∀ k,
      (Node.child? k n.entries).map Node.content? = d.top.look? (place ++ [k]) := by
    intro d n hn k
    unfold Node.look?
    rw [Node.find?_append, hn, Option.bind_some]
    show _ = ((Node.child? k n.entries).bind some).map Node.content?
    rw [Option.bind_fun_some]
  have hsame : ∀ k : String, '.' ∉ k.toList.tail →
      (Node.child? k m.entries).map Node.content?
        = (Node.child? k n.entries).map Node.content? := by
    intro k hk
    rw [hchild hm, hchild hn, h.look place k hk]
  have hread : ∀ k : String, '.' ∉ k.toList.tail →
      (Node.child? k m.entries).bind Node.content?
        = (Node.child? k n.entries).bind Node.content? := by
    intro k hk
    have hjoin : ∀ o : Option Node, o.bind Node.content? = (o.map Node.content?).join := by
      intro o
      cases o <;> rfl
    rw [hjoin, hjoin, hsame k hk]
  have hgit : (Node.child? ".git" m.entries).isSome = (Node.child? ".git" n.entries).isSome := by
    rw [← Option.isSome_map, hsame ".git" (by decide), Option.isSome_map]
  have hexclude : ∀ dir : Path, rulesIn (e.node? (dir.join ⟨"info/exclude"⟩))
      = rulesIn (d.node? (dir.join ⟨"info/exclude"⟩)) := fun dir =>
    rulesIn_congr (h.contentAt? hd he (components_join_exclude dir).choose_spec (by decide))
  unfold layerOf
  simp only [rulesIn_congr (hread ".ignore" (by decide)),
    rulesIn_congr (hread ".gitignore" (by decide)),
    sharedPlace?_congr h hd he _ (hread ".git" (by decide)), hgit, hexclude]

end Ignore

/-! ## §3. What is found. -/

section

variable {d e : Disk} {p : Project}

theorem layersAbove_congr (h : d.Reworded e) (hd : d.WellFormed) (he : e.WellFormed)
    (place : List String) : layersAbove e place = layersAbove d place := by
  unfold layersAbove
  refine List.foldl_ext _ _ _ fun acc i _ => ?_
  have hkind := h.shape.2 (place.take i)
  cases hn : d.top.find? (place.take i) with
  | none =>
    cases hm : e.top.find? (place.take i) with
    | none => rfl
    | some m => rw [hn, hm] at hkind; cases hkind
  | some n =>
    cases hm : e.top.find? (place.take i) with
    | none => rw [hn, hm] at hkind; cases hkind
    | some m => simp only [Ignore.layerOf_congr h hd he hm hn]

/-- The walk comes to the same paths. -/
theorem sees_congr (h : d.Reworded e) (hd : d.WellFormed) (he : e.WellFormed) (q : Path) :
    p.sees e q = p.sees d q := by
  have hpl := Disk.place_of_sameShape h.shape p.root
  have hwalk : ∀ (place : List String) (own : List Ignore.Rule) (ns : List String),
      Discovery.Walk.sees ⟨e, place, own⟩ ns = Discovery.Walk.sees ⟨d, place, own⟩ ns := by
    intro place own ns
    have hall : ∀ (w : Discovery.Walk) (ks : List String) (o : Option Node),
        (o.all fun n => !w.passesOver (layersAbove d (place ++ ks)).1 (place ++ ks) n.isDirectory)
          = (o.map Node.isDirectory).all fun b =>
            !w.passesOver (layersAbove d (place ++ ks)).1 (place ++ ks) b := by
      intro w ks o
      cases o <;> rfl
    unfold Discovery.Walk.sees
    simp only [layersAbove_congr h hd he, hall, h.shape.2]
    rfl
  unfold Project.sees
  cases hl : d.locate p.root with
  | error x =>
    cases hl' : e.locate p.root with
    | error y => rfl
    | ok s => rw [hl, hl'] at hpl; cases hpl
  | ok r =>
    cases hl' : e.locate p.root with
    | error y => rw [hl, hl'] at hpl; cases hpl
    | ok s =>
      rw [hl, hl'] at hpl
      obtain ⟨pl, m⟩ := s
      obtain rfl : pl = r.1 := Except.ok.inj hpl
      cases ownRules p.config with
      | error b => rfl
      | ok own => exact hwalk _ _ _

/-- **The same files are found**, and the same are skipped. -/
theorem exists_discover_of_reworded (h : d.Reworded e) (hd : d.WellFormed) (he : e.WellFormed)
    {rs : List String} (hroot : p.root.Straight rs) {found : Discovery}
    (hfound : discover d p = .ok found) : ∃ found', discover e p = .ok found' ∧
      found'.skipped = found.skipped ∧ ∀ f, f ∈ found'.files ↔ f ∈ found.files := by
  obtain ⟨place, es, own, hl, hown, -⟩ := discover_eq_ok hfound
  obtain ⟨pl, fs, hl'⟩ := Disk.hasDirectory_iff.1
    ((Disk.hasDirectory_of_sameShape h.shape p.root).trans (Disk.hasDirectory_iff.2 ⟨_, _, hl⟩))
  obtain ⟨n, hn⟩ := Disk.exists_locate_of_sameShape h.shape hl'
  obtain rfl : pl = place := (Prod.ext_iff.1 (Except.ok.inj (hn.symm.trans hl))).1
  have hskipped : ∃ found', discover e p = .ok found' ∧ found'.skipped = found.skipped := by
    unfold discover at hfound ⊢
    simp only [hl, hl', hown, layersAbove_congr h hd he] at hfound ⊢
    refine ⟨_, rfl, ?_⟩
    rw [← Except.ok.inj hfound]
  obtain ⟨found', hfound', hskip⟩ := hskipped
  have hiff : ∀ (f : Path × Language) (ns : List String), f.1.Straight (rs ++ ns) →
      (f ∈ found'.files ↔ f ∈ found.files) := by
    intro f ns hf
    rw [mem_files_iff he hroot hfound' hf, mem_files_iff hd hroot hfound hf,
      Disk.hasFile_of_sameShape h.shape, sees_congr h hd he]
  refine ⟨found', hfound', hskip, fun f => ⟨fun hf => ?_, fun hf => ?_⟩⟩
  · obtain ⟨ns, hns, -⟩ := exists_names_of_discover he hroot hfound' hf
    exact (hiff f ns hns).1 hf
  · obtain ⟨ns, hns, -⟩ := exists_names_of_discover hd hroot hfound hf
    exact (hiff f ns hns).2 hf

end

end ModuleMove
