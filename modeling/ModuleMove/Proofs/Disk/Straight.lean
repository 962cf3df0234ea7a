import ModuleMove.Proofs.Disk.Follow
import ModuleMove.Proofs.Path.Straight

/-!
# STRAIGHT PATHS ON A DISK — what is seen at the names of a path

A straight path leads to the place of its names, and what is there is what is seen in the tree.  If
the path leads nowhere, this has one of two reasons: a name on the way is missing, or a file stands
in the way.

Main statements:
  * `locate_straight` — a straight path leads to what is found by its names.
  * `nameAt_of_directory`, `nameAt_of_missing`, `nameAt_of_blocked` — the place that a straight path
    names, whether something is there or not.
-/

namespace ModuleMove

open ModuleMove.Path

namespace Disk

/-- The tree of a disk is well formed and has a directory at its root. -/
structure Rooted (d : Disk) : Prop where
  /-- The entries of each directory have names, and each its own. -/
  tree : d.top.WellFormed
  /-- The root is a directory. -/
  top : ∃ es, d.top = .directory es

theorem WellFormed.rooted {d : Disk} (hd : d.WellFormed) : d.Rooted := ⟨hd.tree, hd.top⟩

variable {d : Disk} {p : Path} {ns ks : List String} {s : String}

theorem Rooted.look?_nil (hd : d.Rooted) : d.top.look? [] = some none := by
  obtain ⟨es, hes⟩ := hd.top
  rw [hes]
  rfl

/-! ## §1. Steps. -/

theorem stepsOf_straight (hp : p.Straight ns) : stepsOf p = if ns = [] then [""] else ns := by
  rw [stepsOf_of_cut hp.cutText, if_pos rfl]

theorem bareSteps_straight (hp : p.Straight ns) : bareSteps p = ns := by
  unfold bareSteps
  rw [stepsOf_straight hp]
  rcases List.eq_nil_or_concat' ns with rfl | ⟨ks, k, rfl⟩
  · rfl
  -- the last step is a name, so that no empty step is taken off the end
  · have hk : k ≠ "" := (hp.1 k (by simp)).1
    rw [if_neg (by simp), List.reverse_append]
    simp [hk]

theorem text_ne_empty_of_straight (hp : p.Straight ns) : p.text.isEmpty = false := by
  rw [Bool.eq_false_iff, Ne, String.isEmpty_iff]
  exact hp.goesOn.text_ne_empty

theorem followFrom_straight (hp : p.Straight ns) (steps : List String) :
    d.followFrom p steps = follow d.top [] d.top steps := by
  have hstart : d.startOf p = [] := by
    unfold startOf
    rw [if_pos hp.isAbsolute]
  unfold followFrom
  rw [hstart]
  rfl

/-- **A straight path leads to what is found by its names.** -/
theorem locate_straight (hd : d.Rooted) (hp : p.Straight ns) {r : List String × Node} :
    d.locate p = .ok r ↔ r.1 = ns ∧ d.top.find? ns = some r.2 := by
  have hlocate : d.locate p = follow d.top [] d.top ns := by
    unfold locate
    rw [text_ne_empty_of_straight hp, if_neg (by decide), followFrom_straight hp,
      stepsOf_straight hp]
    split
    · -- the root of the tree has an empty step, which stays there
      rename_i hns
      subst hns
      obtain ⟨es, hes⟩ := hd.top
      rw [hes]
      rfl
    · rfl
  rw [hlocate, follow_names hp.1, List.nil_append]

theorem node?_straight (hd : d.Rooted) (hp : p.Straight ns) : d.node? p = d.top.find? ns := by
  unfold node?
  cases hl : d.locate p with
  | ok r => exact ((locate_straight hd hp).1 hl).2.symm
  | error e =>
    cases hf : d.top.find? ns with
    | none => rfl
    | some n =>
      rw [(locate_straight hd hp (r := (ns, n))).2 ⟨rfl, hf⟩] at hl
      cases hl

theorem has_straight (hd : d.Rooted) (hp : p.Straight ns) :
    d.has p = (d.top.look? ns).isSome := by
  unfold has Node.look?
  rw [node?_straight hd hp, Option.isSome_map]

theorem hasDirectory_straight (hd : d.Rooted) (hp : p.Straight ns) :
    d.hasDirectory p = true ↔ d.top.look? ns = some none := by
  rw [Node.look?_eq_directory]
  unfold hasDirectory
  rw [node?_straight hd hp]
  cases d.top.find? ns with
  | none => simp
  | some n => cases n <;> simp [Node.isDirectory]

theorem hasFile_straight (hd : d.Rooted) (hp : p.Straight ns) :
    d.hasFile p = true ↔ ∃ c, d.top.look? ns = some (some c) := by
  simp only [Node.look?_eq_file]
  unfold hasFile
  rw [node?_straight hd hp]
  cases d.top.find? ns with
  | none => simp
  | some n => cases n <;> simp [Node.isDirectory]

/-! ## §2. Where nothing is. -/

/-- Nothing is followed through a file. -/
theorem follow_blocked {top n : Node} {place : List String} {c : Content} {rest : List String}
    (hks : ∀ k ∈ ks, IsName k) (h : n.find? ks = some (.file c)) :
    follow top place n (ks ++ s :: rest) = .error .notDirectory := by
  rw [follow_append, (follow_names hks (r := (place ++ ks, .file c))).2 ⟨rfl, h⟩]
  rfl

/-- Where nothing stands in the way of names and nothing is found, something is missing. -/
theorem follow_missing {top n : Node} {place : List String} (hns : ∀ s ∈ ns, IsName s)
    (h : n.find? ns = none) (hfree : ∀ ks, ks <+: ns → ∀ c, n.find? ks ≠ some (.file c)) :
    follow top place n ns = .error .missing := by
  induction ns generalizing n place with
  | nil => cases h
  | cons s ns ih =>
    -- a name is no empty step and no dot or two, so that it is looked up in a directory
    obtain ⟨h0, h1, h2, -⟩ := hns s (List.mem_cons_self ..)
    cases n with
    | file c => exact absurd rfl (hfree [] (List.nil_prefix ..) c)
    | directory es =>
      simp only [follow]
      rw [if_neg (by simp [h0, h1]), if_neg (by simpa using h2)]
      cases hc : Node.child? s es with
      | none => rfl
      | some m =>
        have hfind : ∀ ks, (Node.directory es).find? (s :: ks) = m.find? ks := by
          intro ks
          rw [Node.find?_cons]
          show (Node.child? s es).bind _ = _
          rw [hc]
          rfl
        refine ih (fun t ht => hns t (List.mem_cons_of_mem _ ht)) ((hfind ns).symm.trans h) ?_
        intro ks hks c
        rw [← hfind]
        exact hfree (s :: ks) (List.cons_prefix_cons.2 ⟨rfl, hks⟩) c

/-- What is seen above something that is seen is a directory. -/
theorem look?_of_append {n : Node} {k : String} {rest : List String}
    (h : n.look? (ks ++ k :: rest) ≠ none) : n.look? ks = some none := by
  rw [Ne, Node.look?_eq_none] at h
  obtain ⟨m, hm⟩ := Option.ne_none_iff_exists'.1 h
  obtain ⟨es, hes, -⟩ := Node.isDirectory_of_find?_append hm
  exact Node.look?_eq_directory.2 ⟨es, hes⟩

theorem look?_above {n : Node} (hks : ks <+: ns) (hne : ks ≠ ns) (h : n.look? ns ≠ none) :
    n.look? ks = some none := by
  obtain ⟨rest, rfl⟩ := hks
  cases rest with
  | nil => exact absurd (List.append_nil ks).symm hne
  | cons k rest => exact look?_of_append h

/-! ## §3. The place that a path names. -/

theorem nameAt_straight (hp : p.Straight (ns ++ [s])) :
    d.nameAt p = match follow d.top [] d.top ns with
      | .error e => .error e
      | .ok (_, .file _) => .error .notDirectory
      | .ok (place, .directory _) => .ok (place, some s) := by
  have hs := hp.1 s (by simp)
  -- the last step is a name, so that it is kept for the entry that it stands for
  have hlast : (if s == "." || s == ".." then none else some s) = some s :=
    if_neg (by simp [hs.2.1, hs.2.2.1])
  unfold nameAt
  rw [text_ne_empty_of_straight hp, bareSteps_straight hp]
  simp only [List.dropLast_concat, List.getLast?_concat, followFrom_straight hp, Option.bind_some]
  rw [if_neg (by decide)]
  rcases follow d.top [] d.top ns with e | ⟨place, n | es⟩
  · rfl
  · rfl
  · exact congrArg (fun o => Except.ok (place, o)) hlast

theorem nameAt_of_directory (hp : p.Straight (ns ++ [s])) (h : d.top.look? ns = some none) :
    d.nameAt p = .ok (ns, some s) := by
  obtain ⟨es, hes⟩ := Node.look?_eq_directory.1 h
  have hfollow : follow d.top [] d.top ns = .ok (ns, .directory es) :=
    (follow_names fun t ht => hp.1 t (List.mem_append_left _ ht)).2 ⟨rfl, hes⟩
  rw [nameAt_straight hp, hfollow]

theorem nameAt_of_missing (hp : p.Straight (ns ++ [s])) (h : d.top.look? ns = none)
    (hfree : ∀ ks, ks <+: ns → ∀ c, d.top.look? ks ≠ some (some c)) :
    d.nameAt p = .error .missing := by
  have hfollow : follow d.top [] d.top ns = .error .missing :=
    follow_missing (fun t ht => hp.1 t (List.mem_append_left _ ht)) (Node.look?_eq_none.1 h)
      fun ks hks c hc => hfree ks hks c (Node.look?_eq_file.2 hc)
  rw [nameAt_straight hp, hfollow]

theorem nameAt_of_blocked (hp : p.Straight (ns ++ [s])) {c : Content} (hks : ks <+: ns)
    (h : d.top.look? ks = some (some c)) : d.nameAt p = .error .notDirectory := by
  have hnames : ∀ t ∈ ns, IsName t := fun t ht => hp.1 t (List.mem_append_left _ ht)
  have hfile := Node.look?_eq_file.1 h
  obtain ⟨rest, rfl⟩ := hks
  rw [nameAt_straight hp]
  -- the way ends at the file, or a step leads on from it
  cases rest with
  | nil =>
    rw [List.append_nil] at hnames ⊢
    have hfollow : follow d.top [] d.top ks = .ok (ks, .file c) :=
      (follow_names hnames).2 ⟨rfl, hfile⟩
    rw [hfollow]
  | cons k rest =>
    rw [follow_blocked (fun t ht => hnames t (List.mem_append_left _ ht)) hfile]

end Disk

end ModuleMove
