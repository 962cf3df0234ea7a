import ModuleMove.Plan.Whole
import ModuleMove.Proofs.Dependents.Index
import ModuleMove.Proofs.Plan.Sites

/-!
# PLANNED EDITS — where each edit of a plan lies, and that it fits

Every edit of a plan is about a scanned file.  It changes a specifier in the text of that file,
takes an export statement out of it, or puts a line in where a statement stops.

Main statements:
  * `Preparation.mem_dependentEdits`, `Preparation.mem_ownEditsOf`, `Preparation.mem_barrelEdits` —
    where the edits of a plan come from.
  * `Preparation.sound_of_make` — what a preparation says of the disk is so.
-/

namespace ModuleMove

/-- A preparation whose index says what is so. -/
structure Preparation.Sound (x : Preparation) : Prop where
  /-- The disk is well formed. -/
  disk : x.disk.WellFormed
  /-- The index says of the files on the disk what is so. -/
  index : x.index.Sound x.disk x.project x.unit

/-- A relative specifier is not empty. -/
theorem Reference.ne_empty_of_isRelative {r : Reference} (h : r.isRelative = true) :
    r.specifier ≠ "" := by
  intro h0
  unfold isRelative at h
  rw [h0] at h
  cases h

namespace Preparation

/-! ## §1. Preparing. -/

section

variable {d : Disk} {p : Project} {old new : Path} {x : Preparation} {parse : Parser}

/-- What has been found out when a move has been prepared. -/
theorem make_eq_ok (h : make d p old new parse = .ok x) : ∃ old' new' delta,
    check d p old new = .ok (old', new', delta) ∧ x.unit = MovedUnit.make d p old' new' delta ∧
      x.delta = delta ∧ x.project = p ∧ x.disk = d ∧ checkDestinations d x.unit = .ok () ∧
      buildIndex d p x.unit parse = .ok x.index ∧ fatal? x.index = none := by
  unfold make at h
  obtain ⟨⟨old', new', delta⟩, hc, h⟩ := exists_of_bind_eq_ok h
  obtain ⟨u, hd, h⟩ := exists_of_bind_eq_ok h
  obtain ⟨i, hi, h⟩ := exists_of_bind_eq_ok h
  split at h
  · cases h
  · rename_i hf
    obtain rfl := Except.ok.inj h
    exact ⟨old', new', delta, hc, rfl, rfl, rfl, rfl, hd, hi, hf⟩

/-- The index of a move is that of the scans of the files that are found. -/
theorem index_of_make (h : make d p old new parse = .ok x) : ∃ found, discover d p = .ok found ∧
    x.index = .ofScans x.unit found.skipped (Index.scansOf d found.files parse) := by
  obtain ⟨-, -, -, -, -, -, -, -, -, hindex, -⟩ := make_eq_ok h
  unfold buildIndex at hindex
  obtain ⟨found, hfound, hindex⟩ := exists_of_bind_eq_ok hindex
  exact ⟨found, hfound, (Except.ok.inj hindex).symm⟩

/-- What is in the index has been scanned. -/
theorem scan_of_make (h : make d p old new parse = .ok x) {f : ScannedFile}
    (hf : f ∈ x.index.scanned) :
    (∃ s, d.readText f.path = .ok s ∧ scanWith parse f.path s = .ok f) ∧
      ∃ found, discover d p = .ok found ∧ ∃ g ∈ found.files, g.1 = f.path := by
  obtain ⟨found, hfound, hindex⟩ := index_of_make h
  rw [hindex] at hf
  obtain ⟨-, hscan, hlisted⟩ := Index.path_of_mem_goodScans (Index.mem_scanned_ofScans.1 hf)
  exact ⟨hscan, found, hfound, hlisted⟩

theorem buildIndex_of_found {found : Discovery} (hfound : discover d p = .ok found)
    (u : MovedUnit) :
    buildIndex d p u = .ok (.ofScans u found.skipped (Index.scansOf d found.files)) := by
  unfold buildIndex
  rw [hfound]
  rfl

/-- What is known when a unit is moved, from the files that are found. -/
def ofFound (d : Disk) (p : Project) (u : MovedUnit) (δ : Delta) (found : Discovery) :
    Preparation :=
  ⟨p, d, u, δ, .ofScans u found.skipped (Index.scansOf d found.files)⟩

/-- A move that passes its checks is prepared, if all files that travel can be scanned. -/
theorem make_of_found {old' new' : Path} {δ : Delta} {found : Discovery}
    (hc : check d p old new = .ok (old', new', δ))
    (hd : checkDestinations d (MovedUnit.make d p old' new' δ) = .ok ())
    (hfound : discover d p = .ok found)
    (hfatal : fatal? (ofFound d p (MovedUnit.make d p old' new' δ) δ found).index = none) :
    make d p old new = .ok (ofFound d p (MovedUnit.make d p old' new' δ) δ found) := by
  unfold ofFound at hfatal ⊢
  unfold make
  simp only [hc, hd, buildIndex_of_found hfound, hfatal, Except.bind, bind]

/-- What is known when a unit is moved and all files that are found stay. -/
def ofStaying (d : Disk) (p : Project) (u : MovedUnit) (δ : Delta) (found : Discovery) :
    Preparation :=
  ⟨p, d, u, δ,
    { Index.ofScans u found.skipped (Index.scansOf d found.files) with travelling := [] }⟩

/-- A move that passes its checks is prepared, if all files that are found stay. -/
theorem make_of_staying {old' new' : Path} {δ : Delta} {found : Discovery}
    (hc : check d p old new = .ok (old', new', δ))
    (hd : checkDestinations d (MovedUnit.make d p old' new' δ) = .ok ())
    (hfound : discover d p = .ok found)
    (hstay : (found.files.map (·.1)).filter (MovedUnit.make d p old' new' δ).travels = []) :
    make d p old new = .ok (ofStaying d p (MovedUnit.make d p old' new' δ) δ found) := by
  have hpaths : (Index.scansOf d found.files).map (·.1) = found.files.map (·.1) := by
    unfold Index.scansOf
    rw [List.map_map]
    rfl
  have hindex : buildIndex d p (MovedUnit.make d p old' new' δ)
      = .ok { Index.ofScans (MovedUnit.make d p old' new' δ) found.skipped
        (Index.scansOf d found.files) with travelling := [] } := by
    rw [← Index.ofScans_of_staying (by rw [hpaths, hstay])]
    unfold buildIndex
    rw [hfound]
    rfl
  -- a skipped file is fatal only if it travels, and none does
  have hfatal : ∀ i : Index, fatal? { i with travelling := [] } = none := fun _ => rfl
  unfold make
  simp only [hc, hd, hindex, hfatal, Except.bind, bind]
  rfl

theorem sound_of_make (hd : d.WellFormed) (h : make d p old new = .ok x) : x.Sound := by
  obtain ⟨-, -, -, -, -, -, rfl, rfl, -, hb, -⟩ := make_eq_ok h
  exact ⟨hd, Index.sound_of_buildIndex hd hb⟩

theorem plan_of_make (h : make d p old new = .ok x) : ModuleMove.plan d p old new = .ok x.plan := by
  unfold ModuleMove.plan
  rw [h]
  rfl

theorem plan_eq_ok {pl : Plan} (h : ModuleMove.plan d p old new = .ok pl) :
    ∃ x, make d p old new = .ok x ∧ pl = x.plan := by
  unfold ModuleMove.plan at h
  obtain ⟨x, hx, h⟩ := exists_of_bind_eq_ok h
  exact ⟨x, hx, (Except.ok.inj h).symm⟩

end

/-! ## §2. Edits of specifiers. -/

section

variable {x : Preparation}

/-- The specifier that a file in the directory `dir` needs for a place. -/
theorem respecify_ne_empty (former : String) (dir target root : Path) :
    Specifier.respecify former dir target root ≠ "" := by
  intro h
  have h := congrArg String.toList h
  unfold Specifier.respecify at h
  split at h
  · simp [Specifier.anchored] at h
  · unfold Specifier.relative at h
    -- the text begins with a dot or two
    have hne : ∀ (s : String) (ss : List String), s ≠ "" → joinText '/' (s :: ss) ≠ "" := by
      intro s ss hs hj
      rcases joinText_eq_empty_iff.1 hj with h | h
      · cases h
      · exact hs (List.cons.inj h).1
    have hj := String.toList_inj.1 h
    cases hu : (dir.components.drop (commonLength dir.components target.components)).map
        (fun _ => "..") with
    | nil =>
      simp only [hu] at hj
      exact hne "." _ (by decide) hj
    | cons s ss =>
      simp only [hu] at hj
      have hs : s = ".." := by
        have : s ∈ (dir.components.drop (commonLength dir.components target.components)).map
            (fun _ => "..") := by
          rw [hu]
          exact List.mem_cons_self ..
        obtain ⟨_, -, h⟩ := List.mem_map.1 this
        exact h.symm
      exact hne s _ (by rw [hs]; decide) hj

/-- The edit of a dependent's reference, if it needs one. -/
def dependentEdit? (x : Preparation) (q : Path) (r : Reference) : Option Edit :=
  (x.unit.relocate (targetOf x.project (x.project.directoryOf q) r)).bind fun moved =>
    specifierEdit? q r (Specifier.respecify r.specifier (x.project.directoryOf q) moved
      x.project.root)

theorem edits_dependentEdit (q : Path) (r : Reference) :
    (x.dependentEdit q r).edits = (x.dependentEdit? q r).toList := by
  unfold dependentEdit dependentEdit?
  simp only
  cases x.unit.relocate (targetOf x.project (x.project.directoryOf q) r) <;> rfl

theorem dependentEdits_eq : x.dependentEdits.edits =
    x.index.dependents.entries.flatMap fun i =>
      i.2.flatMap fun r => (x.dependentEdit? i.1 r).toList := by
  unfold dependentEdits
  simp only [List.flatMap_assoc, List.flatMap_map, edits_dependentEdit]

theorem mem_dependentEdits {e : Edit} :
    e ∈ x.dependentEdits.edits ↔ ∃ q rs, (q, rs) ∈ x.index.dependents.entries ∧
      ∃ r ∈ rs, x.dependentEdit? q r = some e := by
  simp only [dependentEdits_eq, List.mem_flatMap, Option.mem_toList]
  constructor
  · rintro ⟨⟨q, rs⟩, hm, r, hr, he⟩
    exact ⟨q, rs, hm, r, hr, he⟩
  · rintro ⟨q, rs, hm, r, hr, he⟩
    exact ⟨(q, rs), hm, r, hr, he⟩

theorem mem_ownEdit? {t old new : Path} {r : Reference} {e : Edit}
    (h : x.ownEdit? t old new r = some e) : ∃ wanted,
      wanted = Specifier.respecify r.specifier new
        ((x.unit.relocate (targetOf x.project old r)).getD (targetOf x.project old r))
        x.project.root ∧
      wanted ≠ r.specifier ∧ e = ⟨t, r.span.start, .replace r.specifier wanted⟩ := by
  unfold ownEdit? at h
  simp only at h
  split at h
  · cases h
  · rename_i hne
    cases h
    exact ⟨_, rfl, by simpa using hne, rfl⟩

theorem ownEdit?_eq_none {t old new : Path} {r : Reference} (h : x.ownEdit? t old new r = none) :
    Specifier.respecify r.specifier new
      ((x.unit.relocate (targetOf x.project old r)).getD (targetOf x.project old r))
      x.project.root = r.specifier := by
  unfold ownEdit? at h
  simp only at h
  split at h
  · rename_i heq
    exact eq_of_beq heq
  · cases h

theorem mem_ownEditsOf {t : Path} {e : Edit} (h : e ∈ x.ownEditsOf t) : ∃ f moved,
    x.index.file? t = some f ∧ x.unit.relocate t = some moved ∧
      ∃ r ∈ f.relativeReferences, x.ownEdit? t (x.project.directoryOf t)
        (x.project.directoryOf moved) r = some e := by
  unfold ownEditsOf at h
  split at h
  · rename_i f moved hf hm
    obtain ⟨r, hr, he⟩ := List.mem_filterMap.1 h
    exact ⟨f, moved, hf, hm, r, hr, he⟩
  · cases h

end

/-! ## §3. Scanned files. -/

section

variable {x : Preparation}

/-- A file of the index, with its text. -/
structure Shows (x : Preparation) (f : ScannedFile) (s : String) : Prop where
  /-- The file has been scanned. -/
  mem : f ∈ x.index.scanned
  /-- Its text is on the disk. -/
  text : x.disk.readText f.path = .ok s
  /-- What is known about it comes from that text. -/
  scan : ModuleMove.scan f.path s = .ok f

theorem Sound.shows (hx : x.Sound) {f : ScannedFile} (hf : f ∈ x.index.scanned) :
    ∃ s, x.Shows f s := by
  obtain ⟨s, h1, h2⟩ := hx.index.scanned f hf
  exact ⟨s, hf, h1, h2⟩

theorem Shows.unique {f : ScannedFile} {s t : String} (h : x.Shows f s) (h' : x.Shows f t) :
    s = t := by
  have := h.text
  rw [h'.text] at this
  exact (Except.ok.inj this).symm

/-- The length of a text that has been scanned is a machine word. -/
theorem Shows.length_lt {f : ScannedFile} {s : String} (h : x.Shows f s) :
    byteLength s.toList < wordCount :=
  Nat.lt_trans (length_of_scan h.scan) (by decide +kernel)

theorem Shows.standsIn {f : ScannedFile} {s : String} (h : x.Shows f s) {r : Reference}
    (hr : r ∈ f.references) : r.StandsIn s.toList :=
  standsIn_of_scan h.scan r hr

/-- References at different places of the list are apart. -/
theorem Shows.apart {f : ScannedFile} {s : String} (h : x.Shows f s) {r q : Reference}
    (hr : r ∈ f.references) (hq : q ∈ f.references) (hne : r ≠ q) : r.Apart q := by
  have hR := (pairwise_apart_of_scan h.scan).imp fun {a b} hab (_ : a ≠ b) => hab
  refine List.Pairwise.forall_of_forall_of_flip (R := fun a b => a ≠ b → a.Apart b)
    (fun _ _ hne => absurd rfl hne) hR (hR.imp fun {a b} hab hne => ?_) hr hq hne
  exact (hab hne.symm).symm

theorem file?_eq_some {t : Path} {f : ScannedFile} (h : x.index.file? t = some f) :
    f ∈ x.index.scanned ∧ f.path.same t = true := by
  unfold Index.file? at h
  have hsame := List.find?_some h
  exact ⟨List.mem_of_find?_eq_some h, hsame⟩

/-- Two spellings of a file are read alike. -/
theorem readText_congr {d : Disk} {p q : Path} {s t : String} (h : p.same q = true)
    (hp : d.readText p = .ok s) (hq : d.readText q = .ok t) : s = t := by
  obtain ⟨pl, hp⟩ := Disk.readText_eq_ok.1 hp
  obtain ⟨ql, hq⟩ := Disk.readText_eq_ok.1 hq
  have := Disk.locate_congr h hp hq
  cases this
  rfl

/-! ## §4. Barrels. -/

theorem barrelAt_eq_ok {path : Path} {b : Barrel} (h : x.barrelAt path = .ok b) :
    ∃ f s, x.index.file? path = some f ∧ x.disk.readText path = .ok s ∧
      b = ⟨path, s.toList, f.exports.filter (·.isRelative),
        largest? ((f.exportStatements ++ f.exports.map (·.statement)).map (·.stop))⟩ := by
  unfold barrelAt at h
  split at h
  · cases h
  · rename_i f hf
    split at h
    · cases h
    · rename_i s hs
      cases h
      exact ⟨f, s, hf, hs, rfl⟩

/-- A barrel that can be read is a scanned file, and is read with the text that was scanned. -/
theorem Sound.barrel (hx : x.Sound) {path : Path} {b : Barrel} (h : x.barrelAt path = .ok b) :
    ∃ f s, x.Shows f s ∧ f.path.same path = true ∧ x.disk.readText path = .ok s ∧
      b = ⟨path, s.toList, f.exports.filter (·.isRelative),
        largest? ((f.exportStatements ++ f.exports.map (·.statement)).map (·.stop))⟩ := by
  obtain ⟨f, s, hf, hs, hb⟩ := barrelAt_eq_ok h
  obtain ⟨hm, hsame⟩ := file?_eq_some hf
  obtain ⟨t, ht⟩ := hx.shows hm
  obtain rfl := readText_congr hsame ht.text hs
  exact ⟨f, t, ht, hsame, hs, hb⟩

theorem betweenBytes?_eq_some {cs l : List Char} {n m : Nat} (h : betweenBytes? cs n m = some l) :
    ∃ a b, cs = a ++ l ++ b ∧ byteLength a = n ∧ n + byteLength l = m := by
  unfold betweenBytes? at h
  simp only [Option.bind_eq_bind, Option.bind_eq_some_iff] at h
  obtain ⟨rest, hrest, h⟩ := h
  obtain ⟨a, rfl, ha⟩ := fromByte?_eq_some hrest
  split at h
  · cases h
  · obtain ⟨⟨l', b⟩, hp, rfl⟩ := Option.map_eq_some_iff.1 h
    obtain ⟨rfl, hl⟩ := partAtByte?_eq_some hp
    refine ⟨a, b, by simp, ha, ?_⟩
    show n + byteLength l' = m
    omega

/-- The removal of an export takes its statement and the end of the line. -/
theorem removal?_eq_some {b : Barrel} {r : Reference} {e : Edit} (h : x.removal? b r = some e) :
    (x.unit.relocate (targetOf x.project x.unit.oldParent r)).isSome = true ∧
      e.target = b.path ∧ e.offset = r.statement.start ∧ (∃ l, e.change = .remove l) ∧
      e.extent.stop = lineEnd b.content r.statement.stop ∧ e.FitsIn b.content := by
  unfold removal? at h
  simp only [Option.bind_eq_bind, Option.bind_eq_some_iff] at h
  obtain ⟨moved, hm, line, hline, he⟩ := h
  cases he
  obtain ⟨a, c, hcs, ha, hlen⟩ := betweenBytes?_eq_some hline
  refine ⟨by rw [hm]; rfl, rfl, rfl, ⟨_, rfl⟩, ?_, a, c, ?_, ha⟩
  · show r.statement.start + byteLength (String.ofList line).toList = _
    rw [String.toList_ofList]
    exact hlen
  · show b.content = a ++ (String.ofList line).toList ++ c
    rw [String.toList_ofList]
    exact hcs

theorem mem_removals {path : Path} {e : Edit} (h : e ∈ (x.removals path).edits) :
    ∃ b, x.barrelAt path = .ok b ∧ ∃ r ∈ b.exports, x.removal? b r = some e := by
  unfold removals at h
  split at h
  · cases h
  · rename_i b hb
    obtain ⟨r, hr, he⟩ := List.mem_filterMap.1 h
    exact ⟨b, hb, r, hr, he⟩

theorem mem_of_largest? {ns : List Nat} {n : Nat} (h : largest? ns = some n) : n ∈ ns := by
  unfold largest? at h
  have hmax : ∀ (ms : List Nat) (k : Nat), ms.foldl max k ∈ k :: ms := by
    intro ms
    induction ms with
    | nil => simp
    | cons m ms ih =>
      intro k
      have := ih (max k m)
      rw [List.foldl_cons]
      -- the larger one of two numbers is one of the two
      rcases List.mem_cons.1 this with h | h
      · rw [h]
        rcases Nat.le_total k m with hkm | hkm
        · rw [Nat.max_eq_right hkm]
          simp
        · rw [Nat.max_eq_left hkm]
          simp
      · exact List.mem_cons_of_mem _ (List.mem_cons_of_mem _ h)
  split at h
  · cases h
  · cases h
    exact hmax _ _

theorem mem_insertion {path : Path} {e : Edit} (h : e ∈ (x.insertion path).edits) :
    ∃ b, x.barrelAt path = .ok b ∧ e = insertionOf b (x.exportLine b) := by
  unfold insertion at h
  split at h
  · cases h
  · rename_i b hb
    split at h
    · cases h
    · rw [List.mem_singleton] at h
      exact ⟨b, hb, h⟩

/-- The barrels of the two directories are not one. -/
def TwoBarrels (x : Preparation) : Prop :=
  ∀ a b, findBarrel x.disk x.project x.unit.oldParent = some a →
    findBarrel x.disk x.project x.unit.newParent = some b → a.same b = false

theorem mem_barrelEdits_iff {e : Edit} : e ∈ x.barrelEdits.edits ↔ x.TwoBarrels ∧
    ((∃ a, findBarrel x.disk x.project x.unit.oldParent = some a ∧ e ∈ (x.removals a).edits) ∨
      ∃ b, findBarrel x.disk x.project x.unit.newParent = some b ∧
        e ∈ (x.insertion b).edits) := by
  unfold barrelEdits TwoBarrels
  cases findBarrel x.disk x.project x.unit.oldParent with
  | none => cases findBarrel x.disk x.project x.unit.newParent <;> simp
  | some a =>
    cases findBarrel x.disk x.project x.unit.newParent with
    | none => simp
    | some b => cases hs : a.same b <;> simp [hs]

/-- The edits of the barrels are removals in the one and an insertion in the other. -/
theorem mem_barrelEdits {e : Edit} (h : e ∈ x.barrelEdits.edits) :
    (∃ a, findBarrel x.disk x.project x.unit.oldParent = some a ∧ e ∈ (x.removals a).edits ∧
      ∀ b, findBarrel x.disk x.project x.unit.newParent = some b → a.same b = false) ∨
    (∃ b, findBarrel x.disk x.project x.unit.newParent = some b ∧ e ∈ (x.insertion b).edits ∧
      ∀ a, findBarrel x.disk x.project x.unit.oldParent = some a → a.same b = false) := by
  obtain ⟨htwo, ⟨a, ha, he⟩ | ⟨b, hb, he⟩⟩ := mem_barrelEdits_iff.1 h
  · exact .inl ⟨a, ha, he, fun b => htwo a b ha⟩
  · exact .inr ⟨b, hb, he, fun a ha => htwo a b ha hb⟩

end

end Preparation

/-- A plan is known by what it is asked for. -/
theorem exists_plan_of_map {α : Type} {d : Disk} {p : Project} {old new : Path} {f : Plan → α}
    {a : α} (h : (plan d p old new).toOption.map f = some a) :
    ∃ pl, plan d p old new = .ok pl ∧ f pl = a := by
  obtain ⟨pl, hpl, ha⟩ := Option.map_eq_some_iff.1 h
  exact ⟨pl, eq_ok_of_toOption hpl, ha⟩

end ModuleMove
