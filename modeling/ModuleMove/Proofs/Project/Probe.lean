import ModuleMove.Project.Probe
import ModuleMove.Proofs.Disk.Straight

/-!
# PROBING — the files that are tried for a module path

A module path is tried as it is, then with each source extension behind it, then as a directory with
an index file.  The first of these that is a file is what the path stands for.  In terms of names,
an attempt changes the end of the path alone.

Main statements:
  * `probe_eq_find?` — probing takes the first candidate that is a file.
  * `probe_eq_some`, `probe_eq_some_iff` — what is found, and that it is found.
  * `probe_of_directory` — what stands for a directory.
  * `Attempt.straight_at` — the names that an attempt makes of those of a straight path.
-/

namespace ModuleMove

open ModuleMove.Path

/-! ## §1. Attempts. -/

/-- A way in which a module path may stand for a file. -/
inductive Attempt where
  /-- It is the path of the file. -/
  | bare
  /-- It leaves out the extension. -/
  | extended (ext : String)
  /-- It is the directory of an index file. -/
  | index (ext : String)

namespace Attempt

/-- The file that is tried for a module path. -/
def at_ (base : Path) : Attempt → Path
  | bare => base
  | extended ext => base.withExtension ext
  | index ext => base.join ⟨"index." ++ ext⟩

/-- The names of that file. -/
def names (ns : List String) : Attempt → List String
  | bare => ns
  | extended ext => ns.dropLast ++ [ns.getLastD "" ++ ("." ++ ext)]
  | index ext => ns ++ ["index." ++ ext]

/-- The extension that is put behind something, if one is. -/
def extension? : Attempt → Option String
  | bare => none
  | extended ext => some ext
  | index ext => some ext

end Attempt

/-- What is tried in a project with the given extensions, in this order. -/
def attempts (extensions : List String) : List Attempt :=
  .bare :: (extensions.map .extended ++ extensions.map .index)

/-- The files that are tried for a module path. -/
def candidates (extensions : List String) (base : Path) : List Path :=
  (attempts extensions).map (Attempt.at_ base)

/-- **Probing takes the first candidate that is a file.** -/
theorem probe_eq_find? (d : Disk) (extensions : List String) (base : Path) :
    probe d extensions base = (candidates extensions base).find? d.hasFile := by
  have hcandidates : candidates extensions base = base :: (extensions.map base.withExtension ++
      extensions.map fun ext => base.join ⟨"index." ++ ext⟩) := by
    unfold candidates attempts
    rw [List.map_cons, List.map_append, List.map_map, List.map_map]
    rfl
  unfold probe
  rw [hcandidates, List.find?_cons, List.find?_append]
  cases d.hasFile base with
  | true => rfl
  | false =>
    simp only [Bool.false_eq_true, if_false]
    cases (extensions.map base.withExtension).find? d.hasFile <;> rfl

/-- What has been found has been tried, and no file has been found before. -/
theorem probe_eq_some {d : Disk} {extensions : List String} {base q : Path}
    (h : probe d extensions base = some q) : ∃ before a behind,
      attempts extensions = before ++ a :: behind ∧ q = a.at_ base ∧ d.hasFile q = true ∧
        ∀ b ∈ before, d.hasFile (b.at_ base) = false := by
  rw [probe_eq_find?] at h
  unfold candidates at h
  rw [List.find?_map, Option.map_eq_some_iff] at h
  obtain ⟨a, ha, rfl⟩ := h
  obtain ⟨hfile, before, behind, hsplit, hbefore⟩ := List.find?_eq_some_iff_append.1 ha
  refine ⟨before, a, behind, hsplit, rfl, hfile, fun b hb => ?_⟩
  simpa using hbefore b hb

theorem find?_of_first {α : Type} [DecidableEq α] {l : List α} {z : α} {p : α → Bool} (hz : z ∈ l)
    (hp : p z = true) (h : ∀ y ∈ l.takeWhile (· != z), p y = false) : l.find? p = some z := by
  induction l with
  | nil => cases hz
  | cons y l ih =>
    -- what stands before the first occurrence is passed over
    by_cases hy : y = z
    · rw [hy, List.find?_cons, hp]
    · have hne : (y != z) = true := by simpa using hy
      rw [List.takeWhile_cons, if_pos hne, List.forall_mem_cons] at h
      rw [List.find?_cons, h.1]
      exact ih ((List.mem_cons.1 hz).resolve_left (Ne.symm hy)) h.2

/-- A candidate that is a file is found if none is a file that is tried before it. -/
theorem probe_of_first {d : Disk} {extensions : List String} {base q : Path}
    (hq : q ∈ candidates extensions base) (hfile : d.hasFile q = true)
    (h : ∀ c ∈ (candidates extensions base).takeWhile (· != q), d.hasFile c = false) :
    probe d extensions base = some q := by
  rw [probe_eq_find?]
  exact find?_of_first hq hfile h

/-- What stands before an element stands before its first occurrence, or is none of it. -/
theorem mem_of_mem_takeWhile {α : Type} [DecidableEq α] {xs ys : List α} {y z : α}
    (h : y ∈ (xs ++ z :: ys).takeWhile (· != z)) : y ∈ xs := by
  induction xs with
  | nil => simp at h
  | cons x xs ih =>
    rw [List.cons_append, List.takeWhile_cons] at h
    split at h
    · rcases List.mem_cons.1 h with rfl | h
      · exact List.mem_cons_self ..
      · exact List.mem_cons_of_mem _ (ih h)
    · cases h

/-- What is tried before a candidate is made by an attempt before its own. -/
theorem exists_attempt_of_mem_takeWhile {extensions : List String} {base c : Path}
    {before behind : List Attempt} {a : Attempt}
    (hsplit : attempts extensions = before ++ a :: behind)
    (h : c ∈ (candidates extensions base).takeWhile (· != a.at_ base)) :
    ∃ b ∈ before, c = b.at_ base := by
  unfold candidates at h
  rw [hsplit, List.map_append, List.map_cons] at h
  obtain ⟨b, hb, rfl⟩ := List.mem_map.1 (mem_of_mem_takeWhile h)
  exact ⟨b, hb, rfl⟩

/-- What has been found is a candidate that is a file, and none is one that is tried before it. -/
theorem probe_eq_some_iff {d : Disk} {extensions : List String} {base q : Path} :
    probe d extensions base = some q ↔ q ∈ candidates extensions base ∧ d.hasFile q = true ∧
      ∀ c ∈ (candidates extensions base).takeWhile (· != q), d.hasFile c = false := by
  refine ⟨fun h => ?_, fun ⟨hq, hfile, h⟩ => probe_of_first hq hfile h⟩
  obtain ⟨before, a, behind, hsplit, rfl, hfile, hbefore⟩ := probe_eq_some h
  refine ⟨?_, hfile, fun c hc => ?_⟩
  · unfold candidates
    rw [hsplit]
    exact List.mem_map_of_mem (List.mem_append_right _ (List.mem_cons_self ..))
  · obtain ⟨b, hb, rfl⟩ := exists_attempt_of_mem_takeWhile hsplit hc
    exact hbefore b hb

/-- A module path stands for an index file if no file has its name. -/
theorem probe_of_directory {d : Disk} {extensions : List String} {base : Path}
    (h : d.hasFile base = false)
    (hno : ∀ ext ∈ extensions, d.hasFile (base.withExtension ext) = false) :
    probe d extensions base
      = (extensions.map fun ext => base.join ⟨"index." ++ ext⟩).find? d.hasFile := by
  have hnone : (extensions.map base.withExtension).find? d.hasFile = none := by
    rw [List.find?_eq_none]
    intro c hc
    obtain ⟨ext, hext, rfl⟩ := List.mem_map.1 hc
    rw [hno ext hext]
    exact Bool.false_ne_true
  unfold probe
  rw [h, hnone]
  rfl

/-- A module path stands for a file of its name if there is one. -/
theorem probe_of_extended {d : Disk} {extensions : List String} {base : Path} {ext : String}
    (h : d.hasFile base = false) (hext : ext ∈ extensions)
    (hfile : d.hasFile (base.withExtension ext) = true) :
    ∃ ext' ∈ extensions, probe d extensions base = some (base.withExtension ext') := by
  have hsome : ((extensions.map base.withExtension).find? d.hasFile).isSome = true := by
    rw [List.find?_isSome]
    exact ⟨_, List.mem_map_of_mem hext, hfile⟩
  obtain ⟨q, hq⟩ := Option.isSome_iff_exists.1 hsome
  obtain ⟨ext', hext', rfl⟩ := List.mem_map.1 (List.mem_of_find?_eq_some hq)
  refine ⟨ext', hext', ?_⟩
  unfold probe
  rw [h, hq]
  rfl

/-! ## §2. Names. -/

section

variable {extensions : List String} {base : Path} {ns : List String} {a : Attempt}

/-- The extensions of attempts are those of the project. -/
theorem mem_of_mem_attempts (h : a ∈ attempts extensions) {ext : String}
    (hext : a.extension? = some ext) : ext ∈ extensions := by
  unfold attempts at h
  rcases List.mem_cons.1 h with rfl | h
  · cases hext
  · rcases List.mem_append.1 h with h | h
    · obtain ⟨e, he, rfl⟩ := List.mem_map.1 h
      obtain rfl := Option.some.inj hext
      exact he
    · obtain ⟨e, he, rfl⟩ := List.mem_map.1 h
      obtain rfl := Option.some.inj hext
      exact he

namespace Attempt

theorem names_extended (ns : List String) (s ext : String) :
    (extended ext).names (ns ++ [s]) = ns ++ [s ++ ("." ++ ext)] := by
  unfold names
  rw [List.dropLast_concat, List.getLastD_concat]

/-- An index file has a name. -/
theorem isName_index {ext : String} (hext : '/' ∉ ext.toList) : IsName ("index." ++ ext) := by
  refine isName_append ?_ hext
  unfold IsName
  decide

/-- **The file that is tried for a straight path is written by names**: by those of the path but for
    the end. -/
theorem straight_at (h : base.Straight ns) (hne : ns ≠ [])
    (hext : ∀ ext, a.extension? = some ext → '/' ∉ ext.toList) :
    (a.at_ base).Straight (a.names ns) := by
  obtain ⟨ns, s, rfl⟩ := (List.eq_nil_or_concat' ns).resolve_left hne
  cases a with
  | bare => exact h
  | extended ext =>
    rw [names_extended]
    exact h.withExtension (hext ext rfl)
  | index ext => exact h.join (isName_index (hext ext rfl))

/-- Behind the root, an extension makes a name, or one or two dots that stay at the root. -/
theorem straight_or_dots (h : base.Straight []) {ext : String} (hext : '/' ∉ ext.toList) :
    ((extended ext).at_ base).Straight ((extended ext).names []) ∨
      ∀ d : Disk, d.Rooted → d.hasFile ((extended ext).at_ base) = false := by
  have hbase : base = ⟨"/"⟩ := h.ext ⟨by simp, rfl⟩
  have hat : (extended ext).at_ base = ⟨"/" ++ ("." ++ ext)⟩ := by
    rw [hbase, ← String.append_assoc]
    rfl
  have hnames : (extended ext).names [] = ["." ++ ext] := by
    show ["" ++ ("." ++ ext)] = _
    rw [String.empty_append]
  rw [hat, hnames]
  -- one dot or two behind the root lead to the root itself, which is no file
  have hroot : ∀ d : Disk, d.Rooted → d.hasFile ⟨"/."⟩ = false ∧ d.hasFile ⟨"/.."⟩ = false := by
    intro d hd
    obtain ⟨es, hes⟩ := hd.top
    have hlocate : ∀ p : Path, p = ⟨"/."⟩ ∨ p = ⟨"/.."⟩ → d.locate p = .ok ([], .directory es) := by
      rintro p (rfl | rfl) <;>
      · unfold Disk.locate Disk.followFrom
        rw [hes]
        rfl
    constructor
    · unfold Disk.hasFile Disk.node?
      rw [hlocate _ (.inl rfl)]
      rfl
    · unfold Disk.hasFile Disk.node?
      rw [hlocate _ (.inr rfl)]
      rfl
  by_cases h1 : "." ++ ext = "."
  · rw [h1]
    exact .inr fun d hd => (hroot d hd).1
  by_cases h2 : "." ++ ext = ".."
  · rw [h2]
    exact .inr fun d hd => (hroot d hd).2
  -- any other text behind the dot makes a name with it
  refine .inl ⟨?_, by rw [joinText_singleton]⟩
  intro s hs
  rw [List.mem_singleton.1 hs]
  refine ⟨fun h0 => ?_, h1, h2, ?_⟩
  · exact absurd (String.append_eq_empty_iff.1 h0).1 (by decide)
  · rw [String.toList_append, List.mem_append]
    rintro (h0 | h0)
    · exact absurd h0 (by decide)
    · exact hext h0

/-- The file that is tried for any straight path is written by names, or cannot be a file: it may be
    the root itself, with a dot or two behind it. -/
theorem straight_or (h : base.Straight ns)
    (hext : ∀ ext, a.extension? = some ext → '/' ∉ ext.toList) :
    (a.at_ base).Straight (a.names ns) ∨ ∀ d : Disk, d.Rooted → d.hasFile (a.at_ base) = false := by
  by_cases hne : ns = []
  · subst hne
    cases a with
    | bare => exact .inl h
    | index ext => exact .inl (h.join (isName_index (hext ext rfl)))
    | extended ext => exact straight_or_dots h (hext ext rfl)
  · exact .inl (straight_at h hne hext)

end Attempt

end

end ModuleMove
