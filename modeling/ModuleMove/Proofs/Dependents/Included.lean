import Mathlib.Data.List.DropRight
import ModuleMove.Proofs.Dependents.Seen
import ModuleMove.Proofs.Unit.Straight

/-!
# INCLUDED FILES — what the patterns that a project includes take away and bring back

All patterns of a project are one list of rules, of which the last that is about a place decides.
Those that include stand behind those that exclude, and before all ignore files.  So a pattern that
includes does two things: of the files that are looked at anyway, those that no such pattern is
about are left out; and a place that would be passed over is looked at after all.

Main statements:
  * `Discovery.passesOver_append` — what the patterns that include change at one place.
  * `includes_narrow_iff` — which files they leave, and which of those were there without them.
  * `excluded_file_included` — a file that is excluded is found because it is included.
-/

namespace ModuleMove

open ModuleMove.Path Discovery

/-! ## §1. Rules. -/

namespace Ignore

variable {rs qs : List Rule} {path : String} {isDirectory : Bool}

theorem isSome_afterStart?_mark {s : String} :
    (afterStart? "!" s).isSome = true ↔ s.toList.head? = some '!' := by
  unfold afterStart?
  cases hs : s.toList with
  | nil => simp
  | cons c cs =>
    by_cases hc : c = '!'
    · simp [hc, List.isPrefixOf]
    · have : ¬ '!' = c := fun h => hc h.symm
      simp [List.isPrefixOf, hc, this]

/-- A line counts with its beginning, if anything of it counts. -/
theorem head?_trimmed {line : String} (h : trimmed line ≠ "") :
    (trimmed line).toList.head? = line.toList.head? := by
  unfold trimmed at h ⊢
  split at h
  · rw [if_pos ‹_›]
  · rename_i hb
    rw [if_neg hb]
    have hdrop : (withoutEndSpace line).toList = line.toList.rdropWhile isSpace := by
      unfold withoutEndSpace List.rdropWhile
      rw [String.toList_ofList]
    rw [hdrop]
    obtain ⟨t, ht⟩ := line.toList.rdropWhile_prefix isSpace
    cases hc : line.toList.rdropWhile isSpace with
    | nil => exact absurd (String.toList_eq_nil_iff.1 (hdrop.trans hc)) h
    | cons c cs =>
      rw [hc] at ht
      rw [← ht]
      rfl

theorem negated_marks (text : String) : (marks text).2.1 = (afterStart? "!" text).isSome := by
  unfold marks
  split
  · -- a mark behind a backslash is none
    rename_i h
    symm
    rw [Bool.eq_false_iff, Ne, isSome_afterStart?_mark]
    intro hhead
    rw [Bool.or_eq_true] at h
    rcases h with h | h <;>
    · obtain ⟨rest, hrest⟩ := Option.isSome_iff_exists.1 h
      rw [afterStart?_eq_some] at hrest
      rw [hrest] at hhead
      simp at hhead
  · cases afterStart? "!" text with
    | none =>
      simp only [Option.isSome_none]
      split <;> rfl
    | some rest =>
      simp only [Option.isSome_some]
      split <;> rfl

/-- **What the rule of a line says**: a line with an exclamation mark in front keeps. -/
theorem verdict_of_ruleOf {lenient : Bool} {line : String} {r : Rule}
    (h : ruleOf lenient line = .ok (some r)) :
    r.verdict = if (afterStart? "!" line).isSome then .keep else .skip := by
  have hmark : trimmed line ≠ "" →
      (afterStart? "!" (trimmed line)).isSome = (afterStart? "!" line).isSome := fun h => by
    rw [Bool.eq_iff_iff, isSome_afterStart?_mark, isSome_afterStart?_mark, head?_trimmed h]
  unfold ruleOf at h
  simp only at h
  split at h
  · cases h
  · rename_i hline
    have hne : trimmed line ≠ "" := fun h0 => hline (by rw [h0]; simp)
    split at h
    · cases h
      simp only
      rw [negated_marks, hmark hne]
    · cases h

/-- Of two lists of rules, the second decides where it says anything. -/
theorem verdict?_append : verdict? (rs ++ qs) path isDirectory
    = (verdict? qs path isDirectory).or (verdict? rs path isDirectory) := by
  unfold verdict?
  rw [List.reverse_append, List.find?_append, Option.map_or]

/-- Rules that all say the same. -/
theorem verdict?_of_forall {v : Verdict} (h : ∀ r ∈ rs, r.verdict = v) :
    verdict? rs path isDirectory
      = if rs.any (·.isAbout path isDirectory) then some v else none := by
  unfold verdict?
  cases hf : rs.reverse.find? fun r => r.isAbout path isDirectory with
  | none =>
    rw [if_neg]
    · rfl
    · rw [List.any_eq_true]
      rintro ⟨r, hr, habout⟩
      exact List.find?_eq_none.1 hf r (List.mem_reverse.2 hr) habout
  | some r =>
    have hr := List.mem_reverse.1 (List.mem_of_find?_eq_some hf)
    rw [if_pos (List.any_eq_true.2 ⟨r, hr, List.find?_some hf⟩), Option.map_some, h r hr]

end Ignore

/-! ## §2. The rules of a project. -/

/-- What is made of each element of a list, if something can be made of all. -/
theorem map_of_mapM_eq_ok {ε α β : Type} {f : α → Except ε β} {as : List α} {bs : List β}
    (h : as.mapM f = .ok bs) : as.map f = bs.map Except.ok := by
  induction as generalizing bs with
  | nil =>
    obtain rfl := Except.ok.inj h
    rfl
  | cons a as ih =>
    rw [List.mapM_cons] at h
    obtain ⟨c, hc, h⟩ := exists_of_bind_eq_ok h
    obtain ⟨cs, hcs, h⟩ := exists_of_bind_eq_ok h
    obtain rfl := Except.ok.inj h
    rw [List.map_cons, List.map_cons, hc, ih hcs]

/-- The configuration without the patterns that it includes. -/
def Config.withoutIncludes (c : Config) : Config := { c with includes := [] }

/-- The rules of the patterns that a configuration includes. -/
def Config.includeRules (c : Config) : List Ignore.Rule :=
  c.includes.filterMap fun g => (Ignore.ruleOf false g).toOption.join

namespace Discovery

theorem ownRules_eq_ok {c : Config} {own : List Ignore.Rule} (h : ownRules c = .ok own) :
    ∃ base, ownRules c.withoutIncludes = .ok base ∧ own = base ++ c.includeRules ∧
      ∀ r ∈ base, r.verdict = .keep := by
  unfold ownRules at h
  obtain ⟨rules, hrules, h⟩ := exists_of_bind_eq_ok h
  obtain rfl := Except.ok.inj h
  unfold ownLines at hrules
  rw [List.mapM_append] at hrules
  obtain ⟨excluding, hexcluding, hrules⟩ := exists_of_bind_eq_ok hrules
  obtain ⟨including, hincluding, hrules⟩ := exists_of_bind_eq_ok hrules
  obtain rfl := Except.ok.inj hrules
  refine ⟨excluding.filterMap id, ?_, ?_, fun r hr => ?_⟩
  · have hlines : ownLines c.withoutIncludes = (neverSources ++ c.excludes).map ("!" ++ ·) :=
      List.append_nil _
    unfold ownRules
    rw [hlines, hexcluding]
    rfl
  · have hrules : c.includeRules = including.filterMap id := by
      have hread : c.includeRules
          = (c.includes.map (Ignore.ruleOf false)).filterMap fun r => r.toOption.join := by
        rw [List.filterMap_map]
        rfl
      rw [hread, map_of_mapM_eq_ok hincluding, List.filterMap_map]
      rfl
    rw [List.filterMap_append, hrules]
  · obtain ⟨o, ho, rfl⟩ := List.mem_filterMap.1 hr
    have hread : Except.ok (some r) ∈
        ((neverSources ++ c.excludes).map ("!" ++ ·)).map (Ignore.ruleOf false) := by
      rw [map_of_mapM_eq_ok hexcluding]
      exact List.mem_map.2 ⟨_, ho, rfl⟩
    obtain ⟨line, hline, hr⟩ := List.mem_map.1 hread
    obtain ⟨pattern, -, rfl⟩ := List.mem_map.1 hline
    rw [Ignore.verdict_of_ruleOf hr, if_pos]
    rw [Ignore.isSome_afterStart?_mark]
    simp

theorem any_skip_of_keeps {base : List Ignore.Rule} (hbase : ∀ r ∈ base, r.verdict = .keep) :
    base.any (fun r => r.verdict == .skip) = false := by
  rw [List.any_eq_false]
  intro r hr
  rw [hbase r hr]
  decide

/-- What the patterns that exclude say about a path. -/
theorem ownVerdict?_of_keeps {base : List Ignore.Rule} (hbase : ∀ r ∈ base, r.verdict = .keep)
    (path : String) (isDirectory : Bool) : ownVerdict? base path isDirectory
      = if base.any (·.isAbout path isDirectory) then some .skip else none := by
  unfold ownVerdict?
  rw [Ignore.verdict?_of_forall hbase, any_skip_of_keeps hbase, Bool.and_false]
  cases base.any (·.isAbout path isDirectory) <;> rfl

/-- What all patterns say about a path: one that a pattern includes is looked at; one that a pattern
    excludes is not, and neither is a file if other files are included. -/
theorem ownVerdict?_append {base inc : List Ignore.Rule} (hbase : ∀ r ∈ base, r.verdict = .keep)
    (hinc : ∀ r ∈ inc, r.verdict = .skip) (path : String) (isDirectory : Bool) :
    ownVerdict? (base ++ inc) path isDirectory =
      if inc.any (·.isAbout path isDirectory) then some .keep
      else if base.any (·.isAbout path isDirectory) then some .skip
      else if isDirectory || inc.isEmpty then none else some .skip := by
  have hskip : (base ++ inc).any (fun r => r.verdict == .skip) = !inc.isEmpty := by
    rw [List.any_append, any_skip_of_keeps hbase, Bool.false_or]
    cases inc with
    | nil => rfl
    | cons r rs => simp [hinc r (List.mem_cons_self ..)]
  unfold ownVerdict?
  rw [Ignore.verdict?_append, Ignore.verdict?_of_forall hbase, Ignore.verdict?_of_forall hinc,
    hskip]
  cases inc.any (·.isAbout path isDirectory) <;> cases base.any (·.isAbout path isDirectory) <;>
    cases isDirectory <;> cases inc.isEmpty <;> rfl

/-- **What the patterns that include change at one place**: one that they are about is not passed
    over; another one is if it was before, and so is each other file. -/
theorem passesOver_append {d : Disk} {root : List String} {base inc : List Ignore.Rule}
    (hbase : ∀ r ∈ base, r.verdict = .keep) (hinc : ∀ r ∈ inc, r.verdict = .skip)
    (layers : List Ignore.Layer) (place : List String) (isDirectory : Bool) :
    Discovery.Walk.passesOver ⟨d, root, base ++ inc⟩ layers place isDirectory =
      (!inc.any (·.isAbout (joinText '/' (place.drop root.length)) isDirectory) &&
        (Discovery.Walk.passesOver ⟨d, root, base⟩ layers place isDirectory ||
          !(isDirectory || inc.isEmpty))) := by
  unfold Discovery.Walk.passesOver
  simp only [ownVerdict?_append hbase hinc, ownVerdict?_of_keeps hbase]
  cases inc.any (·.isAbout (joinText '/' (place.drop root.length)) isDirectory)
  · cases base.any (·.isAbout (joinText '/' (place.drop root.length)) isDirectory)
    · cases isDirectory || inc.isEmpty <;> simp
    · simp
  · simp

end Discovery

/-! ## §3. The files of a project. -/

/-- What the walk of a project asks about the place under some names below the root: whether it is
    passed over, if nothing on the way to it is. -/
def Project.passesOver (d : Disk) (p : Project) (ks : List String) : Bool :=
  match d.locate p.root, ownRules p.config with
  | .ok (place, _), .ok own => (d.top.find? (place ++ ks)).any fun n =>
      Discovery.Walk.passesOver ⟨d, place, own⟩ (layersAbove d (place ++ ks)).1 (place ++ ks)
        n.isDirectory
  | _, _ => false

/-- Whether a pattern that a project includes is about what is under some names below the root. -/
def Project.includes (d : Disk) (p : Project) (ks : List String) : Bool :=
  match d.locate p.root with
  | .ok (place, _) => (d.top.find? (place ++ ks)).any fun n =>
      p.config.includeRules.any (·.isAbout (joinText '/' ks) n.isDirectory)
  | _ => false

section

variable {d : Disk} {p : Project} {found : Discovery} {f : Path × Language} {rs ns : List String}

/-- The walk comes to a place if nothing on the way is passed over. -/
theorem sees_iff_passesOver (h : discover d p = .ok found) (q : Path) :
    p.sees d q = true ↔ ∀ ks, ks ≠ [] → ks <+: Delta.segmentsBelow q p.root →
      p.passesOver d ks = false := by
  obtain ⟨place, es, own, hl, hown, -⟩ := discover_eq_ok h
  unfold Project.sees Project.passesOver
  rw [hl, hown]
  simp only [Discovery.Walk.sees, List.all_eq_true, List.mem_inits, Bool.or_eq_true,
    List.isEmpty_iff]
  refine forall_congr' fun ks => ⟨fun h hne hks => ?_, fun h hks => ?_⟩
  · have := (h hks).resolve_left hne
    cases hf : d.top.find? (place ++ ks) with
    | none => rfl
    | some n =>
      rw [hf] at this
      simpa using this
  · by_cases hne : ks = []
    · exact .inl hne
    · have := h hne hks
      cases hf : d.top.find? (place ++ ks) with
      | none => exact .inr rfl
      | some n =>
        rw [hf] at this
        exact .inr (by simpa using this)

/-- The project without the patterns that it includes. -/
def Project.withoutIncludes (p : Project) : Project := ⟨p.root, p.config.withoutIncludes⟩

/-- The rules of patterns without an exclamation mark in front pass over what they are about. -/
theorem verdict_of_includeRules {c : Config} (hplain : ∀ g ∈ c.includes, afterStart? "!" g = none) :
    ∀ r ∈ c.includeRules, r.verdict = .skip := by
  intro r hr
  obtain ⟨g, hg, hjoin⟩ := List.mem_filterMap.1 hr
  have hrule := eq_ok_of_toOption (Option.join_eq_some_iff.1 hjoin)
  rw [Ignore.verdict_of_ruleOf hrule, hplain g hg]
  rfl

/-- A project in which files are found has files without the patterns that it includes as well. -/
theorem exists_discover_withoutIncludes (h : discover d p = .ok found) :
    ∃ all, discover d p.withoutIncludes = .ok all := by
  obtain ⟨place, es, own, hl, hown, -⟩ := discover_eq_ok h
  obtain ⟨base, hbase, -⟩ := ownRules_eq_ok hown
  unfold discover Project.withoutIncludes
  simp only [hl, hbase]
  exact ⟨_, rfl⟩

/-- What the patterns that a project includes change at one place below its root. -/
theorem passesOver_eq (hplain : ∀ g ∈ p.config.includes, afterStart? "!" g = none)
    (h : discover d p = .ok found) {place ks : List String} {m n : Node}
    (hl : d.locate p.root = .ok (place, m)) (hn : d.top.find? (place ++ ks) = some n) :
    p.passesOver d ks = (!p.includes d ks && (p.withoutIncludes.passesOver d ks ||
      !(n.isDirectory || p.config.includeRules.isEmpty))) := by
  obtain ⟨-, es, own, -, hown, -⟩ := discover_eq_ok h
  obtain ⟨base, hbase, rfl, hkeep⟩ := ownRules_eq_ok hown
  unfold Project.passesOver Project.includes Project.withoutIncludes
  simp only [hl, hown, hbase, hn, Option.any_some,
    passesOver_append hkeep (verdict_of_includeRules hplain), List.drop_left]

/-- What is under the names of a place that something is found at. -/
theorem exists_node_above {place ks : List String} {c : Content} {root : Node}
    (hn : root.find? (place ++ ns) = some (.file c)) (hks : ks <+: ns) :
    ∃ n, root.find? (place ++ ks) = some n ∧ (n.isDirectory = true ↔ ks ≠ ns) := by
  obtain ⟨js, rfl⟩ := hks
  cases js with
  | nil =>
    rw [List.append_nil] at hn ⊢
    exact ⟨_, hn, by simp [Node.isDirectory]⟩
  | cons j js =>
    rw [← List.append_assoc] at hn
    obtain ⟨es, hes, -⟩ := Node.isDirectory_of_find?_append hn
    exact ⟨_, hes, by simp [Node.isDirectory]⟩

/-- **Which files the patterns that a project includes leave**: the walk comes to a file exactly if,
    at each place on the way, a pattern includes it or nothing passes over it without such patterns;
    and if there are such rules, one is about the file. -/
theorem sees_iff_includes (hd : d.WellFormed) (hroot : p.root.Straight rs)
    (hplain : ∀ g ∈ p.config.includes, afterStart? "!" g = none) (h : discover d p = .ok found)
    {q : Path} (hq : q.Straight (rs ++ ns)) (hne : ns ≠ []) (hfile : d.hasFile q = true) :
    p.sees d q = true ↔
      (∀ ks, ks ≠ [] → ks <+: ns → p.includes d ks = true ∨
        p.withoutIncludes.passesOver d ks = false) ∧
      (p.config.includeRules = [] ∨ p.includes d ns = true) := by
  obtain ⟨place, es, -, hl, -⟩ := discover_eq_ok h
  obtain ⟨rfl, -⟩ := (Disk.locate_straight hd.rooted hroot).1 hl
  obtain ⟨c, hc⟩ := (Disk.hasFile_straight hd.rooted hq).1 hfile
  have hat := Node.look?_eq_file.1 hc
  rw [sees_iff_passesOver h, segmentsBelow_straight hroot hq]
  -- at each place, what is passed over can be told from the patterns and from the rest
  have hplace : ∀ ks, ks <+: ns → (p.passesOver d ks = false ↔ p.includes d ks = true ∨
      p.withoutIncludes.passesOver d ks = false ∧ (ks = ns → p.config.includeRules = [])) := by
    intro ks hks
    obtain ⟨n, hn, hdir⟩ := exists_node_above hat hks
    rw [passesOver_eq hplain h hl hn]
    cases p.includes d ks <;> cases p.withoutIncludes.passesOver d ks <;>
      cases hd : n.isDirectory <;> simp_all
  constructor
  · refine fun hall => ⟨fun ks hks hpre => ?_, ?_⟩
    · exact ((hplace ks hpre).1 (hall ks hks hpre)).imp_right (·.1)
    · have hself : ns <+: ns := List.prefix_refl ns
      rcases (hplace ns hself).1 (hall ns hne hself) with hin | hrest
      · exact .inr hin
      · exact .inl (hrest.2 rfl)
  · rintro ⟨hall, hlast⟩ ks hks hpre
    refine (hplace ks hpre).2 ?_
    by_cases hin : p.includes d ks = true
    · exact .inl hin
    · refine .inr ⟨(hall ks hks hpre).resolve_left hin, ?_⟩
      rintro rfl
      exact hlast.resolve_right hin

end

/-- **Of the files that are found, those that were there without the patterns that include** are
    those that no such pattern brings back: each place on the way that one is about would not have
    been passed over.  Of the files that are found without such patterns, those are left that a
    pattern includes. -/
theorem includes_narrow_iff {d : Disk} {root : Path} {c : Config} {found : Discovery}
    (hd : d.WellFormed) (habs : root.isAbsolute = true)
    (hplain : ∀ g ∈ c.includes, afterStart? "!" g = none)
    (h : discover d (.ofRoot root c) = .ok found) :
    ∃ all, discover d (.ofRoot root c.withoutIncludes) = .ok all ∧
      (∀ f ∈ found.files, f ∈ all.files ↔
        ∀ ks, ks ≠ [] → ks <+: Delta.segmentsBelow f.1 root.normalize →
          (Project.ofRoot root c).includes d ks = true →
          (Project.ofRoot root c.withoutIncludes).passesOver d ks = false) ∧
      ∀ f ∈ all.files, f ∈ found.files ↔ c.includeRules = [] ∨
        (Project.ofRoot root c).includes d (Delta.segmentsBelow f.1 root.normalize) = true := by
  obtain ⟨rs, hroot⟩ := Project.straight_ofRoot habs c
  obtain ⟨all, hall⟩ := exists_discover_withoutIncludes h
  have hroot' : (Project.ofRoot root c).withoutIncludes.root.Straight rs := hroot
  -- with the patterns and without them, the same paths are those of source files
  have hsource : ∀ q, sourceOf? (Project.ofRoot root c).withoutIncludes.config q
      = sourceOf? (Project.ofRoot root c).config q := fun _ => rfl
  refine ⟨all, hall, fun f hf => ?_, fun f hf => ?_⟩
  · obtain ⟨ns, hns, hne⟩ := exists_names_of_discover hd hroot h hf
    obtain ⟨hs, hfile, hsees⟩ := (mem_files_iff hd hroot h hns).1 hf
    obtain ⟨hway, -⟩ := (sees_iff_includes hd hroot hplain h hns hne hfile).1 hsees
    have hbelow : Delta.segmentsBelow f.1 root.normalize = ns := segmentsBelow_straight hroot hns
    rw [mem_files_iff hd hroot' hall hns, hsource, hbelow, and_iff_right hs, and_iff_right hfile,
      sees_iff_passesOver hall, segmentsBelow_straight hroot' hns]
    refine forall_congr' fun ks => forall_congr' fun hks => forall_congr' fun hpre => ?_
    exact ⟨fun hno _ => hno, fun hno => (hway ks hks hpre).elim hno id⟩
  · obtain ⟨ns, hns, hne⟩ := exists_names_of_discover hd hroot' hall hf
    obtain ⟨hs, hfile, hsees⟩ := (mem_files_iff hd hroot' hall hns).1 hf
    rw [sees_iff_passesOver hall, segmentsBelow_straight hroot' hns] at hsees
    have hbelow : Delta.segmentsBelow f.1 root.normalize = ns := segmentsBelow_straight hroot hns
    rw [mem_files_iff hd hroot h hns, ← hsource, hbelow, and_iff_right hs, and_iff_right hfile,
      sees_iff_includes hd hroot hplain h hns hne hfile]
    exact and_iff_right fun ks hks hpre => .inr (hsees ks hks hpre)

/-! ## §4. A file that is both excluded and included. -/

/-- A disk with a spec file and a file in another language. -/
def listedDisk : Disk where
  top := .directory [("a.spec.ts", .file (.text "")), ("b.js", .file (.text ""))]
  here := []

/-- Spec files are excluded, and all files of one extension are included. -/
def listedConfig : Config :=
  { Config.default with excludes := ["*.spec.ts"], includes := ["**/*.ts"] }

theorem wellFormed_listedDisk : listedDisk.WellFormed := by
  refine ⟨?_, _, rfl⟩
  simp only [listedDisk, Node.WellFormed, Node.AllWellFormed]
  decide

/-- With the pattern that includes, the spec file is found. -/
theorem discover_listedDisk : ∃ found,
    discover listedDisk (.ofRoot ⟨"/"⟩ listedConfig) = .ok found ∧
      found.files = [(⟨"/a.spec.ts"⟩, .typeScript)] := by
  have hfiles : (discover listedDisk (.ofRoot ⟨"/"⟩ listedConfig)).toOption.map (·.files)
      = some [(⟨"/a.spec.ts"⟩, .typeScript)] := by decide +kernel
  obtain ⟨found, hfound, hall⟩ := Option.map_eq_some_iff.1 hfiles
  exact ⟨found, eq_ok_of_toOption hfound, hall⟩

/-- Without it, the other file is. -/
theorem discover_listedDisk_withoutIncludes : ∃ all,
    discover listedDisk (.ofRoot ⟨"/"⟩ listedConfig.withoutIncludes) = .ok all ∧
      all.files = [(⟨"/b.js"⟩, .javaScript)] := by
  have hfiles : (discover listedDisk (.ofRoot ⟨"/"⟩ listedConfig.withoutIncludes)).toOption.map
      (·.files) = some [(⟨"/b.js"⟩, .javaScript)] := by decide +kernel
  obtain ⟨all, hall, hrest⟩ := Option.map_eq_some_iff.1 hfiles
  exact ⟨all, eq_ok_of_toOption hall, hrest⟩

/-- The file that no pattern includes is left out, and the other one is brought back: a pattern
    includes it, and it is passed over without that pattern. -/
theorem listed_files_narrow : ∃ found all,
    discover listedDisk (.ofRoot ⟨"/"⟩ listedConfig) = .ok found ∧
      discover listedDisk (.ofRoot ⟨"/"⟩ listedConfig.withoutIncludes) = .ok all ∧
      (⟨"/b.js"⟩, .javaScript) ∉ found.files ∧ ∃ ks,
        (Project.ofRoot ⟨"/"⟩ listedConfig).includes listedDisk ks = true ∧
        (Project.ofRoot ⟨"/"⟩ listedConfig.withoutIncludes).passesOver listedDisk ks = true := by
  obtain ⟨found, hfound, hfiles⟩ := discover_listedDisk
  obtain ⟨all, hall, hrest⟩ := discover_listedDisk_withoutIncludes
  obtain ⟨all', hall', hback, hleft⟩ :=
    includes_narrow_iff wellFormed_listedDisk rfl (by decide +kernel) hfound
  obtain rfl := Except.ok.inj (hall.symm.trans hall')
  refine ⟨found, all, hfound, hall, ?_, ?_⟩
  · rw [hleft _ (by rw [hrest]; exact List.mem_singleton_self _)]
    decide +kernel
  · -- otherwise the spec file would have been there before
    by_contra hno
    have hspec := (hback (⟨"/a.spec.ts"⟩, .typeScript) (by rw [hfiles]; exact .head _)).2
      fun ks _ _ hin => Bool.eq_false_iff.2 fun hpass => hno ⟨ks, hin, hpass⟩
    rw [hrest] at hspec
    exact absurd hspec (by decide)

/-- **A file that is excluded is found because it is included**: without the pattern that includes
    it, it is passed over. -/
theorem excluded_file_included : ∃ found all,
    discover listedDisk (.ofRoot ⟨"/"⟩ listedConfig) = .ok found ∧
      discover listedDisk (.ofRoot ⟨"/"⟩ listedConfig.withoutIncludes) = .ok all ∧
      (∀ g ∈ listedConfig.includes, afterStart? "!" g = none) ∧
      (⟨"/a.spec.ts"⟩, .typeScript) ∈ found.files ∧
      (⟨"/a.spec.ts"⟩, .typeScript) ∉ all.files := by
  obtain ⟨found, hfound, hfiles⟩ := discover_listedDisk
  obtain ⟨all, hall, hrest⟩ := discover_listedDisk_withoutIncludes
  refine ⟨found, all, hfound, hall, by decide +kernel, ?_, ?_⟩
  · rw [hfiles]
    exact List.mem_singleton_self _
  · rw [hrest]
    decide

end ModuleMove
