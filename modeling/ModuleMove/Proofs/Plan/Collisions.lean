import ModuleMove.Proofs.Plan.BarrelEdits
import ModuleMove.Proofs.Discover
import ModuleMove.Proofs.Project.Probe

/-!
# COLLISIONS — names that a barrel exports twice after a move

The line that a barrel gets passes on all names of the unit.  The names of the unit's entry file are
compared with those that the barrel exports from other files of the project, by name or as a whole.
Each name that is among both is listed in a warning.  What the barrel declares itself, and what it
exports from packages, is not compared.

Main statements:
  * `mem_sortedNames`, `pairwise_sortedNames` — a list of names is put in order, each name once.
  * `Preparation.mem_namesOf`, `Preparation.mem_barrelNames` — whence the names come.
  * `collisions_listed` — the warning lists the names that are among both.
  * `own_declaration_unlisted` — a name that the barrel declares itself is not listed.
-/

namespace ModuleMove

open Preparation

/-! ## §1. Names in order. -/

/-- Of names in order, each is kept once, in the same order. -/
theorem foldr_distinct {ns : List String} (h : ns.Pairwise (· ≤ ·)) :
    let ms := ns.foldr (fun n seen => if seen.head? == some n then seen else n :: seen) []
    (∀ n, n ∈ ms ↔ n ∈ ns) ∧ ms.Pairwise (· < ·) := by
  induction ns with
  | nil => exact ⟨fun _ => Iff.rfl, .nil⟩
  | cons a ns ih =>
    obtain ⟨hle, h⟩ := List.pairwise_cons.1 h
    obtain ⟨hmem, hsorted⟩ := ih h
    rw [List.foldr_cons]
    generalize ns.foldr (fun n seen => if seen.head? == some n then seen else n :: seen) [] = ms
      at hmem hsorted ⊢
    dsimp only
    split
    · -- the name stands in front already
      rename_i heq
      have ha : a ∈ ns := (hmem a).1 (List.mem_of_head? (eq_of_beq heq))
      refine ⟨fun n => ?_, hsorted⟩
      rw [hmem, List.mem_cons]
      exact ⟨.inr, fun h => h.elim (fun h => h ▸ ha) id⟩
    · rename_i hne
      refine ⟨fun n => by rw [List.mem_cons, List.mem_cons, hmem], ?_⟩
      refine List.pairwise_cons.2 ⟨fun n hn => ?_, hsorted⟩
      cases ms with
      | nil => cases hn
      | cons m ms =>
        -- the name in front is larger, as it is another one, and the others are larger than it
        have hma : a ≠ m := fun h => hne (by rw [h]; exact beq_self_eq_true _)
        have ham : a < m := by
          have hle : a ≤ m := hle m ((hmem m).1 (List.mem_cons_self ..))
          exact String.not_le.1 fun h => hma (String.le_antisymm hle h)
        rcases List.mem_cons.1 hn with rfl | hn
        · exact ham
        · exact String.lt_trans ham ((List.pairwise_cons.1 hsorted).1 n hn)

theorem pairwise_mergeSort_names (ns : List String) :
    (ns.mergeSort fun a b => !(b < a)).Pairwise (· ≤ ·) := by
  have hle : ∀ a b : String, (!decide (b < a)) = true ↔ a ≤ b := fun a b => by
    rw [Bool.not_eq_true', decide_eq_false_iff_not, String.not_lt]
  have h : (ns.mergeSort fun a b => !(b < a)).Pairwise fun a b => (!decide (b < a)) = true := by
    refine List.pairwise_mergeSort ?_ ?_ ns
    · simp only [hle]
      exact fun _ _ _ => String.le_trans
    · simp only [Bool.or_eq_true, hle]
      exact String.le_total
  exact h.imp fun {a b} => (hle a b).1

/-- Putting names in order keeps them. -/
theorem mem_sortedNames {ns : List String} {n : String} : n ∈ sortedNames ns ↔ n ∈ ns := by
  unfold sortedNames
  rw [(foldr_distinct (pairwise_mergeSort_names ns)).1, List.mem_mergeSort]

/-- **Names are put in order, each once.** -/
theorem pairwise_sortedNames (ns : List String) : (sortedNames ns).Pairwise (· < ·) :=
  (foldr_distinct (pairwise_mergeSort_names ns)).2

namespace Preparation

variable {x : Preparation} {b q : Path} {n : String}

/-! ## §2. Whence the names come. -/

/-- A scanned file has a name to pass on: it declares it, exports it by name, or exports all that
    another file declares. -/
inductive Offers (x : Preparation) (q : Path) (n : String) : Prop
  | declared {f : ScannedFile} (file : x.index.file? q = some f) (name : n ∈ f.declared)
  | named {f : ScannedFile} {r : Reference} (file : x.index.file? q = some f)
      (mem : r ∈ f.exports) (kind : r.isWildcard = false) (name : n ∈ r.exported)
  | whole {f g : ScannedFile} {r : Reference} {t : Path} (file : x.index.file? q = some f)
      (mem : r ∈ f.exports) (kind : r.isWildcard = true) (relative : r.isRelative = true)
      (target : probe x.disk x.project.extensions
        (targetOf x.project (x.project.directoryOf q) r) = some t)
      (found : x.index.file? t = some g) (name : n ∈ g.declared)

/-- A barrel exports a name from another file of the project: by name, or with all that the file has
    to pass on. -/
inductive Reexports (x : Preparation) (b : Path) (n : String) : Prop
  | named {f : ScannedFile} {r : Reference} (file : x.index.file? b = some f)
      (mem : r ∈ f.exports) (relative : r.isRelative = true) (kind : r.isWildcard = false)
      (name : n ∈ r.exported)
  | whole {f : ScannedFile} {r : Reference} {t : Path} (file : x.index.file? b = some f)
      (mem : r ∈ f.exports) (relative : r.isRelative = true) (kind : r.isWildcard = true)
      (target : probe x.disk x.project.extensions
        (targetOf x.project (x.project.directoryOf b) r) = some t)
      (name : x.Offers t n)

theorem mem_namesOf : n ∈ x.namesOf q ↔ x.Offers q n := by
  unfold namesOf
  constructor
  · intro h
    split at h
    · cases h
    · rename_i f hf
      rcases List.mem_append.1 h with h | h
      · exact .declared hf h
      · obtain ⟨r, hr, h⟩ := List.mem_flatMap.1 h
        cases hw : r.isWildcard with
        | false =>
          simp only [hw, Bool.not_false, if_true] at h
          exact .named hf hr hw h
        | true =>
          cases hrel : r.isRelative with
          | false => simp [hw, hrel] at h
          | true =>
            simp only [hw, hrel, Bool.not_true, Bool.false_eq_true, if_false] at h
            split at h
            · rename_i g hg
              obtain ⟨t, ht, hg⟩ := Option.bind_eq_some_iff.1 hg
              exact .whole hf hr hw hrel ht hg h
            · cases h
  · rintro (⟨hf, hn⟩ | ⟨hf, hr, hw, hn⟩ | ⟨hf, hr, hw, hrel, ht, hg, hn⟩)
    · simp only [hf]
      exact List.mem_append_left _ hn
    · simp only [hf]
      refine List.mem_append_right _ (List.mem_flatMap.2 ⟨_, hr, ?_⟩)
      simpa only [hw, Bool.not_false, if_true] using hn
    · simp only [hf]
      refine List.mem_append_right _ (List.mem_flatMap.2 ⟨_, hr, ?_⟩)
      simpa only [hw, hrel, Bool.not_true, Bool.false_eq_true, if_false, ht, Option.bind_some, hg]
        using hn

theorem mem_barrelNames {c : Barrel} (hc : x.barrelAt b = .ok c) :
    n ∈ x.barrelNames c ↔ x.Reexports b n := by
  obtain ⟨f, s, hf, -, rfl⟩ := barrelAt_eq_ok hc
  unfold barrelNames
  rw [List.mem_flatMap]
  constructor
  · rintro ⟨r, hr, h⟩
    obtain ⟨hr, hrel⟩ := List.mem_filter.1 hr
    cases hw : r.isWildcard with
    | false =>
      simp only [hw, Bool.false_eq_true, if_false] at h
      exact .named hf hr hrel hw h
    | true =>
      simp only [hw, if_true] at h
      split at h
      · rename_i t ht
        exact .whole hf hr hrel hw ht (mem_namesOf.1 h)
      · cases h
  · rintro (⟨hf', hr, hrel, hw, hn⟩ | ⟨hf', hr, hrel, hw, ht, hn⟩) <;>
    · obtain rfl : f = _ := Option.some.inj (hf.symm.trans hf')
      refine ⟨_, List.mem_filter.2 ⟨hr, hrel⟩, ?_⟩
      first
        | simpa only [hw, Bool.false_eq_true, if_false] using hn
        | simpa only [hw, if_true, ht] using mem_namesOf.2 hn

/-! ## §3. The names of the unit. -/

/-- The entry file of the unit: the file itself, or the index file of the directory. -/
def entryFile? (x : Preparation) : Option Path :=
  match x.unit.style with
  | .file => some x.unit.old
  | .directory =>
    (x.project.extensions.map fun ext => x.unit.old.join ⟨"index." ++ ext⟩).find? x.disk.hasFile

/-- **The unit is known by its entry file**, unless it is a directory and a source file beside it
    has its name. -/
theorem unitFile?_eq_entryFile? {d : Disk} {p : Project} {old new : Path}
    (h : make d p old new = .ok x) (hbeside : x.unit.style = .directory →
      ∀ ext ∈ p.extensions, d.hasFile (x.unit.old.withExtension ext) = false) :
    x.unitFile? = x.entryFile? := by
  obtain ⟨old', new', δ, -, hu, -, rfl, rfl, -⟩ := make_eq_ok h
  unfold unitFile? entryFile?
  cases hs : x.unit.style with
  | file => rfl
  | directory =>
    have hdirectory : x.disk.hasDirectory x.unit.old = true := by
      rw [hu] at hs ⊢
      exact hasDirectory_of_style hs
    have hself : x.disk.hasFile x.unit.old = false := by
      rw [Bool.eq_false_iff]
      intro hfile
      have := Disk.not_same_of_hasDirectory hdirectory hfile
      rw [Path.same_refl] at this
      cases this
    exact probe_of_directory hself fun ext hext => hbeside hs ext hext

theorem mem_clashes {c : Barrel} (hc : x.barrelAt b = .ok c) (hq : x.unitFile? = some q) :
    n ∈ x.clashes c ↔ x.Offers q n ∧ x.Reexports b n := by
  unfold clashes
  simp only [hq]
  rw [mem_sortedNames, List.mem_filter, List.contains_iff_mem, mem_namesOf, mem_barrelNames hc]

theorem pairwise_clashes (x : Preparation) (c : Barrel) : (x.clashes c).Pairwise (· < ·) := by
  unfold clashes
  split
  · exact .nil
  · exact pairwise_sortedNames _

/-! ## §4. The warning. -/

/-- The warning that a line in a barrel exports names that the barrel exports already. -/
def collision (path : Path) (line : String) (ns : List String) : Warning :=
  ⟨path, "\x60" ++ line ++ "\x60 re-exports names the barrel already exports: " ++
    String.intercalate ", " ns⟩

/-- A line with which names clash comes with a warning. -/
theorem collision_mem_insertion {c : Barrel} (hc : x.barrelAt b = .ok c)
    (hno : x.exportsUnit c = false) (hclash : x.clashes c ≠ []) :
    collision b (x.exportLine c) (x.clashes c) ∈ (x.insertion b).warnings := by
  unfold insertion
  simp only [hc, hno, if_neg Bool.false_ne_true]
  exact List.mem_singleton_self _

theorem mem_barrelEdits_warnings {w : Warning} (htwo : x.TwoBarrels)
    (hb : findBarrel x.disk x.project x.unit.newParent = some b)
    (hw : w ∈ (x.insertion b).warnings) : w ∈ x.barrelEdits.warnings := by
  unfold barrelEdits
  simp only [hb]
  cases ha : findBarrel x.disk x.project x.unit.oldParent with
  | none => exact List.mem_append_right _ hw
  | some a =>
    simp only [htwo a b ha hb]
    exact List.mem_append_right _ hw

end Preparation

/-- **The warning lists the names that a barrel exports twice.**  If a line is put into the barrel
    of the directory that the unit enters, and the barrel exports from another file of the project a
    name that the unit's entry file has to pass on, then the plan warns about the barrel.  The
    warning tells the line and lists the name.  It lists all such names and no others, in order and
    each once. -/
theorem collisions_listed {d : Disk} {p : Project} {old new q : Path} {x : Preparation} {e : Edit}
    {n : String} (hx : Preparation.make d p old new = .ok x) (he : e ∈ x.barrelEdits.edits)
    (hi : e.isInsert = true) (hq : x.entryFile? = some q)
    (hbeside : x.unit.style = .directory →
      ∀ ext ∈ p.extensions, d.hasFile (x.unit.old.withExtension ext) = false)
    (hoffers : x.Offers q n) (hexports : x.Reexports e.target n) :
    ∃ pl, plan d p old new = .ok pl ∧ e ∈ pl.edits ∧ ∃ line ns,
      (e.written = "\n" ++ line ∨ e.written = line ++ "\n") ∧
        collision e.target line ns ∈ pl.warnings ∧ n ∈ ns ∧ ns.Pairwise (· < ·) ∧
        ∀ m, m ∈ ns ↔ x.Offers q m ∧ x.Reexports e.target m := by
  obtain ⟨c, hc, htwo, hb, hno, hline⟩ := exists_line he hi
  have hfile : x.unitFile? = some q := (unitFile?_eq_entryFile? hx hbeside).trans hq
  have hclash : n ∈ x.clashes c := (mem_clashes hc hfile).2 ⟨hoffers, hexports⟩
  have hwarning := mem_barrelEdits_warnings htwo hb
    (collision_mem_insertion hc hno (List.ne_nil_of_mem hclash))
  refine ⟨x.plan, plan_of_make hx, List.mem_append_right _ he, x.exportLine c, x.clashes c, ?_,
    List.mem_append_left _ (List.mem_append_right _ hwarning), hclash, pairwise_clashes x c,
    fun m => mem_clashes hc hfile⟩
  rw [hline]
  unfold insertionOf
  split
  · exact .inl rfl
  · exact .inr rfl

/-! ## §5. Two barrels. -/

/-- A disk with a file that declares a class, and with a barrel where the file goes. -/
def clashDisk (barrel : String) : Disk where
  top := .directory [("bar", .directory [("index.ts", .file (.text barrel))]),
    ("foo.ts", .file (.text "export class Widget \x7b\x7d\n"))]
  here := []

/-- The files that are found on the disk. -/
def clashFound : Discovery := ⟨[(⟨"/bar/index.ts"⟩, .typeScript), (⟨"/foo.ts"⟩, .typeScript)], []⟩

/-- The file, on its way into the directory of the barrel. -/
def clashUnit (barrel : String) : MovedUnit :=
  .make (clashDisk barrel) smallProject ⟨"/foo.ts"⟩ ⟨"/bar/foo.ts"⟩
    ⟨"bar", .moveDown, 1, [], ["bar"]⟩

/-- What is known when the file is moved. -/
def clashPreparation (barrel : String) : Preparation :=
  .ofFound (clashDisk barrel) smallProject (clashUnit barrel) ⟨"bar", .moveDown, 1, [], ["bar"]⟩
    clashFound

/-- The move is prepared, whatever the barrel says. -/
theorem prepared_clashDisk {barrel : String}
    (hfound : discover (clashDisk barrel) smallProject = .ok clashFound)
    (hfree : checkDestinations (clashDisk barrel) (clashUnit barrel) = .ok ())
    (hfatal : fatal? (clashPreparation barrel).index = none) :
    Preparation.make (clashDisk barrel) smallProject ⟨"foo.ts"⟩ ⟨"bar/foo.ts"⟩
      = .ok (clashPreparation barrel) := by
  have hcheck : Preparation.check (clashDisk barrel) smallProject ⟨"foo.ts"⟩ ⟨"bar/foo.ts"⟩
      = .ok (⟨"/foo.ts"⟩, ⟨"/bar/foo.ts"⟩, ⟨"bar", .moveDown, 1, [], ["bar"]⟩) := rfl
  unfold clashUnit at hfree
  unfold clashPreparation clashUnit at hfatal ⊢
  exact Preparation.make_of_found hcheck hfree hfound hfatal

/-- A barrel that exports a name of another file. -/
def namingBarrel : String := "export \x7b Widget \x7d from './w';\n"

/-- The barrel, as it is scanned. -/
def namingFile : ScannedFile :=
  ⟨⟨"/bar/index.ts"⟩, .typeScript,
    [⟨⟨"/bar/index.ts"⟩, "./w", ⟨24, 27⟩, ⟨0, 29⟩, .exports, ["Widget"], 1⟩], [], [⟨0, 29⟩]⟩

/-- The file, as it is scanned. -/
def widgetFile : ScannedFile := ⟨⟨"/foo.ts"⟩, .typeScript, [], ["Widget"], [⟨0, 22⟩]⟩

/-- The line for the file. -/
def widgetEdit (offset : Nat) : Edit :=
  ⟨⟨"/bar/index.ts"⟩, offset, .insert "\nexport * from './foo';"⟩

/-- The name of the class is listed, as the barrel exports it from another file. -/
theorem named_export_listed : ∃ pl,
    plan (clashDisk namingBarrel) smallProject ⟨"foo.ts"⟩ ⟨"bar/foo.ts"⟩ = .ok pl ∧
      widgetEdit 29 ∈ pl.edits ∧ ∃ line ns,
        ((widgetEdit 29).written = "\n" ++ line ∨ (widgetEdit 29).written = line ++ "\n") ∧
          collision ⟨"/bar/index.ts"⟩ line ns ∈ pl.warnings ∧ "Widget" ∈ ns ∧
          ns.Pairwise (· < ·) ∧
          ∀ m, m ∈ ns ↔ (clashPreparation namingBarrel).Offers ⟨"/foo.ts"⟩ m ∧
            (clashPreparation namingBarrel).Reexports ⟨"/bar/index.ts"⟩ m := by
  have hfound : discover (clashDisk namingBarrel) smallProject = .ok clashFound :=
    discover_smallProject rfl (by decide +kernel) (List.pairwise_pair.2 (by decide +kernel))
  have hprepared := prepared_clashDisk hfound (by decide +kernel) (by decide +kernel)
  obtain ⟨hedits, hwidget, hbarrel⟩ :
      (clashPreparation namingBarrel).barrelEdits.edits = [widgetEdit 29] ∧
        (clashPreparation namingBarrel).index.file? ⟨"/foo.ts"⟩ = some widgetFile ∧
        (clashPreparation namingBarrel).index.file? ⟨"/bar/index.ts"⟩ = some namingFile := by
    decide +kernel
  have hfile : (clashPreparation namingBarrel).unit.style = .file := rfl
  exact collisions_listed hprepared (by rw [hedits]; exact List.mem_singleton_self _) rfl rfl
    (by rw [hfile]; simp) (.declared hwidget (by decide))
    (.named hbarrel (List.mem_singleton_self _) rfl rfl (by decide))

/-- A barrel that declares a class of the same name. -/
def declaringBarrel : String := "export class Widget \x7b\x7d\n"

/-- The barrel, as it is scanned. -/
def declaringFile : ScannedFile :=
  ⟨⟨"/bar/index.ts"⟩, .typeScript, [], ["Widget"], [⟨0, 22⟩]⟩

/-- **A name that the barrel declares itself is not listed.**  The barrel exports a class, the file
    one of the same name, and the line for the file is put in without a warning. -/
theorem own_declaration_unlisted : ∃ x pl,
    Preparation.make (clashDisk declaringBarrel) smallProject ⟨"foo.ts"⟩ ⟨"bar/foo.ts"⟩ = .ok x ∧
      plan (clashDisk declaringBarrel) smallProject ⟨"foo.ts"⟩ ⟨"bar/foo.ts"⟩ = .ok pl ∧
      x.barrelEdits.edits = [widgetEdit 22] ∧ pl.edits = [widgetEdit 22] ∧
      x.entryFile? = some ⟨"/foo.ts"⟩ ∧ x.index.file? ⟨"/foo.ts"⟩ = some widgetFile ∧
      "Widget" ∈ widgetFile.declared ∧
      x.index.file? ⟨"/bar/index.ts"⟩ = some declaringFile ∧ declaringFile.declared = ["Widget"] ∧
      (clashDisk declaringBarrel).readText ⟨"/bar/index.ts"⟩
        = .ok "export class Widget \x7b\x7d\n" ∧
      declaringFile.exportStatements = [⟨0, 22⟩] ∧ pl.warnings = [] := by
  have hfound : discover (clashDisk declaringBarrel) smallProject = .ok clashFound :=
    discover_smallProject rfl (by decide +kernel) (List.pairwise_pair.2 (by decide +kernel))
  have hprepared := prepared_clashDisk hfound (by decide +kernel) (by decide +kernel)
  obtain ⟨hline, hedits, hwarnings, hwidget, hbarrel⟩ :
      (clashPreparation declaringBarrel).barrelEdits.edits = [widgetEdit 22] ∧
        (clashPreparation declaringBarrel).plan.edits = [widgetEdit 22] ∧
        (clashPreparation declaringBarrel).plan.warnings = [] ∧
        (clashPreparation declaringBarrel).index.file? ⟨"/foo.ts"⟩ = some widgetFile ∧
        (clashPreparation declaringBarrel).index.file? ⟨"/bar/index.ts"⟩ = some declaringFile := by
    decide +kernel
  exact ⟨_, _, hprepared, plan_of_make hprepared, hline, hedits, rfl, hwidget, by decide, hbarrel,
    rfl, by decide +kernel, rfl, hwarnings⟩

end ModuleMove
