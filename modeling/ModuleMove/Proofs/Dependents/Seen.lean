import Mathlib.Data.List.Infix
import ModuleMove.Proofs.Dependents.Straight

/-!
# SEEN FILES — which files the walk of a project comes to

The walk goes down from the root and gathers the ignore rules of the directories that it enters.
What it comes to can be told from each place alone: neither the place nor a directory on the way to
it is passed over under the rules of the directories above it.

Main statements:
  * `layersAbove_concat` — the rules that count below a directory are those that count for it and
    its own.
  * `mem_filesOf_iff` — the walk comes to a file exactly if nothing on the way is passed over.
  * `mem_discover_iff`, `mem_files_iff` — which files are found in a project.
-/

namespace ModuleMove

open ModuleMove.Path Discovery

/-! ## §1. What is clear of rules. -/

namespace Discovery

/-- Neither the place under some names nor a directory on the way there from `place` is passed over
    under the rules of the directories above it. -/
def Walk.Clear (w : Walk) (place ns : List String) : Prop :=
  ∀ ks k, ks ++ [k] <+: ns → ∀ n, w.disk.top.find? (place ++ (ks ++ [k])) = some n →
    w.passesOver (layersAbove w.disk (place ++ (ks ++ [k]))).1 (place ++ (ks ++ [k]))
      n.isDirectory = false

/-- Whether the walk comes to the place under some names below the root. -/
def Walk.sees (w : Walk) (ns : List String) : Bool :=
  ns.inits.all fun ks => ks.isEmpty || (w.disk.top.find? (w.root ++ ks)).all fun n =>
    !w.passesOver (layersAbove w.disk (w.root ++ ks)).1 (w.root ++ ks) n.isDirectory

variable {w : Walk} {place ns : List String} {k : String} {n m : Node}

theorem Walk.sees_iff : w.sees ns = true ↔ w.Clear w.root ns := by
  unfold sees Clear
  simp only [List.all_eq_true, List.mem_inits, Bool.or_eq_true, List.isEmpty_iff,
    Option.all_eq_true, Bool.not_eq_true']
  constructor
  · intro h ks k hks n hn
    exact (h (ks ++ [k]) hks).resolve_left (by simp) n hn
  · intro h ks hks
    rcases List.eq_nil_or_concat' ks with rfl | ⟨ks, k, rfl⟩
    · exact .inl rfl
    · exact .inr (h ks k hks)

theorem Walk.clear_nil : w.Clear place [] := by
  intro ks k hks
  simp at hks

/-- The first step of the way is looked at where it is, the others from there. -/
theorem Walk.clear_cons (hm : w.disk.top.find? (place ++ [k]) = some m) :
    w.Clear place (k :: ns) ↔
      w.passesOver (layersAbove w.disk (place ++ [k])).1 (place ++ [k]) m.isDirectory = false ∧
        w.Clear (place ++ [k]) ns := by
  constructor
  · refine fun h => ⟨h [] k ⟨ns, rfl⟩ m hm, fun ks j hks n hn => ?_⟩
    have := h (k :: ks) j (List.cons_prefix_cons.2 ⟨rfl, hks⟩) n
    rw [List.cons_append, ← List.singleton_append, ← List.append_assoc] at this
    exact this hn
  · rintro ⟨hfirst, hrest⟩ ks j hks n hn
    cases ks with
    | nil =>
      obtain ⟨rfl, -⟩ := List.cons_prefix_cons.1 hks
      rw [List.nil_append] at hn ⊢
      rw [hm] at hn
      obtain rfl := Option.some.inj hn
      exact hfirst
    | cons i ks =>
      obtain ⟨rfl, hbehind⟩ := List.cons_prefix_cons.1 hks
      rw [List.cons_append, ← List.singleton_append, ← List.append_assoc] at hn ⊢
      exact hrest ks j hbehind n hn

/-- **The rules that count below a directory**: its own before those that count for it. -/
theorem layersAbove_concat {d : Disk} (k : String) (hn : d.top.find? place = some n) :
    (layersAbove d (place ++ [k])).1
      = (Ignore.layerOf d place n.entries).1 :: (layersAbove d place).1 := by
  unfold layersAbove
  rw [List.length_append, List.length_singleton, List.range_succ, List.foldl_append,
    List.foldl_cons, List.foldl_nil, List.take_left, hn]
  simp only
  -- the directories further up are the same ones
  congr 2
  refine List.foldl_ext _ _ _ fun acc i hi => ?_
  rw [List.take_append_of_le_length (Nat.le_of_lt (List.mem_range.1 hi))]

/-! ## §2. The walk. -/

theorem mem_filesIn {layers : List Ignore.Layer} {path q : Path} {es : List (String × Node)} :
    q ∈ filesIn w layers place path es ↔ ∃ e ∈ es,
      w.passesOver layers (place ++ [e.1]) e.2.isDirectory = false ∧
        q ∈ filesOf w layers (place ++ [e.1]) (path.join ⟨e.1⟩) e.2 := by
  induction es with
  | nil => simp [filesIn]
  | cons e es ih =>
    obtain ⟨k, n⟩ := e
    rw [filesIn, List.mem_append, ih]
    simp only [List.mem_cons, exists_eq_or_imp]
    refine or_congr ?_ Iff.rfl
    cases w.passesOver layers (place ++ [k]) n.isDirectory <;> simp

/-- The walk comes to a file below a directory through the entry that the way to it begins with. -/
theorem mem_filesOf_directory {layers : List Ignore.Layer} {path q : Path}
    {es : List (String × Node)} {ps : List String} (hes : (Node.directory es).WellFormed)
    (hpath : path.Straight ps) (hq : q.Straight (ps ++ k :: ns)) :
    q ∈ filesOf w layers place path (.directory es) ↔ ∃ m, Node.child? k es = some m ∧
      w.passesOver ((Ignore.layerOf w.disk place es).1 :: layers) (place ++ [k]) m.isDirectory
        = false ∧
      q ∈ filesOf w ((Ignore.layerOf w.disk place es).1 :: layers) (place ++ [k])
        (path.join ⟨k⟩) m := by
  rw [Node.WellFormed] at hes
  rw [filesOf, mem_filesIn]
  have hgo : path.GoesOn q (k :: ns) := by
    refine ⟨fun s hs => hq.1 s (List.mem_append_right _ hs), ?_⟩
    rw [hq.components, hpath.components, List.map_append, List.cons_append]
  constructor
  · rintro ⟨⟨j, m⟩, he, hpass, h⟩
    -- what is found in an entry has the name of the entry behind the path
    obtain ⟨hname, hwell⟩ := Node.allWellFormed_iff.1 hes.2 _ he
    obtain ⟨js, -, hjs, -⟩ := goesOn_filesOf w _ _ _ m hwell q h
    obtain ⟨rfl, -⟩ := List.cons.inj ((hjs.cons hname).inj hgo (same_refl q))
    exact ⟨m, Node.child?_of_mem he hes.1, hpass, h⟩
  · rintro ⟨m, hm, hpass, h⟩
    exact ⟨(k, m), Node.mem_of_child? hm, hpass, h⟩

/-- Where the walk stands, it comes to a file exactly if there is one. -/
theorem mem_filesOf_self {layers : List Ignore.Layer} {q : Path} (hn : n.WellFormed) :
    q ∈ filesOf w layers place q n ↔ ∃ c, n.find? [] = some (.file c) := by
  cases n with
  | file c =>
    rw [filesOf]
    exact ⟨fun _ => ⟨c, rfl⟩, fun _ => List.mem_singleton_self _⟩
  | directory es =>
    rw [filesOf]
    rw [Node.WellFormed] at hn
    constructor
    · intro h
      -- what is found in a directory has a longer path
      obtain ⟨k, m, js, c, -, hgo, -⟩ := goesOn_filesIn w _ place q es hn.2 q h
      have hlen := congrArg List.length hgo.2
      simp at hlen
    · rintro ⟨c, hc⟩
      cases hc

/-- **The walk comes to a file exactly if nothing on the way is passed over.** -/
theorem mem_filesOf_iff {path q : Path} {ps : List String} (hn : n.WellFormed)
    (hplace : w.disk.top.find? place = some n) (hpath : path.Straight ps)
    (hq : q.Straight (ps ++ ns)) :
    q ∈ filesOf w (layersAbove w.disk place).1 place path n ↔
      (∃ c, n.find? ns = some (.file c)) ∧ w.Clear place ns := by
  -- by induction on the way, one directory after the other
  induction ns generalizing n place path ps with
  | nil =>
    rw [List.append_nil] at hq
    obtain rfl := hq.ext hpath
    rw [and_iff_left Walk.clear_nil]
    exact mem_filesOf_self hn
  | cons k ks ih =>
    cases n with
    | file c =>
      rw [filesOf, List.mem_singleton]
      constructor
      · rintro rfl
        have := (hq.same_iff hpath).1 (same_refl _)
        simp at this
      · rintro ⟨⟨c', hc⟩, -⟩
        cases hc
    | directory es =>
      have hwell := hn
      rw [Node.WellFormed, Node.allWellFormed_iff] at hwell
      have hstep : ∀ m, Node.child? k es = some m → ((∃ c, m.find? ks = some (.file c)) ∧
          w.Clear place (k :: ks) ↔ w.passesOver ((Ignore.layerOf w.disk place es).1 ::
            (layersAbove w.disk place).1) (place ++ [k]) m.isDirectory = false ∧
          q ∈ filesOf w ((Ignore.layerOf w.disk place es).1 :: (layersAbove w.disk place).1)
            (place ++ [k]) (path.join ⟨k⟩) m) := by
        intro m hm
        have hfind : w.disk.top.find? (place ++ [k]) = some m := by
          rw [Node.find?_append, hplace]
          show (Node.child? k es).bind some = _
          rw [hm]
          rfl
        have hq' : q.Straight (ps ++ [k] ++ ks) := by rwa [List.append_assoc]
        have hlayers : (layersAbove w.disk (place ++ [k])).1
            = (Ignore.layerOf w.disk place es).1 :: (layersAbove w.disk place).1 :=
          layersAbove_concat k hplace
        rw [Walk.clear_cons hfind, ← hlayers, ih (hwell.2 _ (Node.mem_of_child? hm)).2 hfind
          (hpath.join (hq.1 k (by simp))) hq', and_left_comm]
      rw [mem_filesOf_directory hn hpath hq]
      constructor
      · rintro ⟨m, hm, h⟩
        obtain ⟨⟨c, hc⟩, hclear⟩ := (hstep m hm).2 h
        refine ⟨⟨c, ?_⟩, hclear⟩
        show (Node.child? k es).bind _ = _
        rw [hm]
        exact hc
      · rintro ⟨⟨c, hc⟩, hclear⟩
        obtain ⟨m, hm, hc⟩ := Option.bind_eq_some_iff.1
          (show (Node.child? k es).bind (Node.find? ks) = some (.file c) from hc)
        exact ⟨m, hm, (hstep m hm).1 ⟨⟨c, hc⟩, hclear⟩⟩

end Discovery

/-! ## §3. What is found. -/

/-- Whether the walk of a project comes to a path: neither ignore files nor the project's own
    patterns pass over it or over a directory on the way to it from the root. -/
def Project.sees (d : Disk) (p : Project) (q : Path) : Bool :=
  match d.locate p.root, ownRules p.config with
  | .ok (place, _), .ok own => Walk.sees ⟨d, place, own⟩ (Delta.segmentsBelow q p.root)
  | _, _ => false

section

variable {d : Disk} {p : Project} {found : Discovery} {f : Path × Language} {q : Path}
  {rs ns : List String}

/-- The names of a place below a straight root. -/
theorem segmentsBelow_straight {root : Path} (hroot : root.Straight rs)
    (hq : q.Straight (rs ++ ns)) : Delta.segmentsBelow q root = ns := by
  unfold Delta.segmentsBelow below?
  rw [if_pos, hq.components, hroot.components, List.map_append, ← List.cons_append,
    List.drop_left, Option.getD_some, textsOf_map_name]
  rw [List.isPrefixOf_iff_prefix, hq.components, hroot.components, List.map_append,
    ← List.cons_append]
  exact List.prefix_append ..

/-- **The files that are found in a project** are the source files that its walk comes to. -/
theorem mem_discover_iff (hd : d.WellFormed) (hroot : p.root.Straight rs)
    (h : discover d p = .ok found) (hq : q.Straight (rs ++ ns)) :
    (∃ f ∈ found.files, f.1 = q) ↔
      d.hasFile q = true ∧ (sourceOf? p.config q).isSome = true ∧ p.sees d q = true := by
  obtain ⟨place, es, own, hl, hown, hperm⟩ := discover_eq_ok h
  obtain ⟨hplace, hfind⟩ := (Disk.locate_straight hd.rooted hroot).1 hl
  obtain rfl : place = rs := hplace
  have hfile : d.hasFile q = true ↔ ∃ c, (Node.directory es).find? ns = some (.file c) := by
    rw [Disk.hasFile_straight hd.rooted hq]
    refine exists_congr fun c => ?_
    rw [Node.look?_eq_file, Node.find?_append, hfind]
    rfl
  have hsees : p.sees d q = Walk.sees ⟨d, place, own⟩ ns := by
    unfold Project.sees
    rw [hl, hown]
    simp only
    rw [segmentsBelow_straight hroot hq]
  have hwalk : q ∈ filesIn ⟨d, place, own⟩ ((Ignore.layerOf d place es).1 ::
      (layersAbove d place).1) place p.root es ↔ d.hasFile q = true ∧ p.sees d q = true := by
    have := mem_filesOf_iff (w := ⟨d, place, own⟩) (hd.tree.find? hfind) hfind hroot hq
    rw [filesOf] at this
    rw [this, hfile, hsees, Walk.sees_iff]
  constructor
  · rintro ⟨f, hf, rfl⟩
    obtain ⟨q, hmem, hs⟩ := List.mem_filterMap.1 (hperm.mem_iff.1 hf)
    rw [fst_of_sourceOf? hs] at hwalk ⊢
    obtain ⟨h1, h2⟩ := hwalk.1 hmem
    exact ⟨h1, by rw [hs]; rfl, h2⟩
  · rintro ⟨h1, h2, h3⟩
    obtain ⟨f, hf⟩ := Option.isSome_iff_exists.1 h2
    exact ⟨f, hperm.mem_iff.2 (List.mem_filterMap.2 ⟨q, hwalk.2 ⟨h1, h3⟩, hf⟩),
      fst_of_sourceOf? hf⟩

/-- Which files are found, with their languages. -/
theorem mem_files_iff (hd : d.WellFormed) (hroot : p.root.Straight rs)
    (h : discover d p = .ok found) (hf : f.1.Straight (rs ++ ns)) :
    f ∈ found.files ↔ sourceOf? p.config f.1 = some f ∧ d.hasFile f.1 = true ∧
      p.sees d f.1 = true := by
  have hlisted : ∀ g ∈ found.files, sourceOf? p.config g.1 = some g := by
    obtain ⟨place, es, own, -, -, hperm⟩ := discover_eq_ok h
    intro g hg
    obtain ⟨q, -, hs⟩ := List.mem_filterMap.1 (hperm.mem_iff.1 hg)
    rwa [fst_of_sourceOf? hs]
  have hiff := mem_discover_iff hd hroot h hf
  constructor
  · intro hmem
    obtain ⟨h1, -, h3⟩ := hiff.1 ⟨f, hmem, rfl⟩
    exact ⟨hlisted f hmem, h1, h3⟩
  · rintro ⟨hs, h1, h3⟩
    obtain ⟨g, hg, heq⟩ := hiff.2 ⟨h1, by rw [hs]; rfl, h3⟩
    have := hlisted g hg
    rw [heq, hs] at this
    rwa [Option.some.inj this]

/-- Below a straight root, a found file is named by its names behind those of the root. -/
theorem exists_names_of_discover (hd : d.WellFormed) (hroot : p.root.Straight rs)
    (h : discover d p = .ok found) (hf : f ∈ found.files) :
    ∃ ns, f.1.Straight (rs ++ ns) ∧ ns ≠ [] := by
  obtain ⟨ms, hms⟩ := straight_of_discover hd hroot h f hf
  obtain ⟨ns, hns, hne⟩ := goesOn_of_discover hd h f hf
  obtain rfl := hms.eq_append hroot ns hns.2
  exact ⟨ns, hms, hne⟩

end

end ModuleMove
