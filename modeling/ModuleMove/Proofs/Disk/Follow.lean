import ModuleMove.Disk.Change
import ModuleMove.Proofs.Disk.Tree
import ModuleMove.Proofs.Path.Order

/-!
# FOLLOWING PATHS — the place that a path leads to

What a path leads to is decided by its components alone, as far as two spellings lead anywhere:
a step that stays where it is can only fail.  The place is found in the tree, and which places
paths lead to depends on what the directories are and not on what the files hold.

Main statements:
  * `Disk.follow_step` — where one step leads from a directory of the tree.
  * `Disk.locate_congr` — two spellings that lead somewhere lead to one place.
  * `Disk.find?_of_locate` — what a path leads to is in the tree at the place it leads to.
  * `Disk.nameAt_of_locate` — a file is found by its name in the directory that it is in.
-/

namespace ModuleMove

namespace Disk

/-! ## §1. Well-formed disks. -/

/-- The tree of a disk is well formed, and the working directory is in it. -/
structure WellFormed (d : Disk) : Prop where
  /-- The entries of each directory have names, and each its own. -/
  tree : d.top.WellFormed
  /-- The working directory is a directory. -/
  here : ∃ es, d.top.find? d.here = some (.directory es)

theorem WellFormed.top {d : Disk} (h : d.WellFormed) : ∃ es, d.top = .directory es := by
  obtain ⟨es, hes⟩ := h.here
  cases hh : d.here with
  | nil =>
    rw [hh] at hes
    exact ⟨es, Option.some.inj hes⟩
  | cons k ks =>
    rw [hh] at hes
    obtain ⟨ds, hds, -⟩ := Node.isDirectory_of_find?_append (a := []) hes
    exact ⟨ds, Option.some.inj hds⟩

/-! ## §2. Steps. -/

/-- Whether a step leads anywhere else. -/
def moves (s : String) : Bool := s != "" && s != "."

/-- The step that a component stands for. -/
def stepOf? : Component → Option String
  | .up => some ".."
  | .name s => some s
  | _ => none

theorem filter_moves (ps : List String) :
    ps.filter moves = (ps.filterMap Path.componentOf?).filterMap stepOf? := by
  induction ps with
  | nil => rfl
  | cons s ps ih =>
    by_cases h0 : s = ""
    · subst h0
      exact ih
    · by_cases h1 : s = "."
      · subst h1
        exact ih
      · have hm : moves s = true := by simp [moves, h0, h1]
        rw [List.filter_cons_of_pos hm, ih]
        by_cases h2 : s = ".."
        · subst h2
          rfl
        · have hc : Path.componentOf? s = some (.name s) := by
            unfold Path.componentOf?
            split
            · exact absurd rfl h0
            · exact absurd rfl h1
            · exact absurd rfl h2
            · rfl
          rw [List.filterMap_cons_some hc]
          rfl

theorem stepsOf_of_cut {p : Path} {s : String} {ps : List String}
    (h : cutText '/' p.text = s :: ps) : stepsOf p = if s = "" then ps else s :: ps := by
  unfold stepsOf
  rw [h]
  split
  · rename_i heq
    obtain ⟨rfl, rfl⟩ := List.cons.inj heq
    rfl
  · rename_i hne
    rw [if_neg fun h0 => hne ps (by rw [h0])]

/-- The steps of a path that lead somewhere else are those of its components. -/
theorem filter_stepsOf (p : Path) : (stepsOf p).filter moves = p.components.filterMap stepOf? := by
  by_cases h : p.text = ""
  · rw [Path.components_eq_nil_iff.2 h, stepsOf, h]
    rfl
  · obtain ⟨s, ps, hc, hor, he⟩ := Path.components_eq_opening h
    rw [he, List.filterMap_append, ← filter_moves, stepsOf_of_cut hc]
    by_cases h0 : s = ""
    · subst h0
      rfl
    · rw [if_neg h0]
      -- the first piece is a step like any other
      have hs : (Path.opening s).filterMap stepOf? = [s].filter moves := by
        rw [filter_moves]
        unfold Path.opening
        split
        · exact absurd rfl h0
        · rfl
        · rw [List.filterMap_cons]
          cases Path.componentOf? s <;> rfl
      rw [hs, ← List.filter_append]
      rfl

theorem stepsOf_ne_nil {p : Path} (h : p.text ≠ "") : stepsOf p ≠ [] := by
  obtain ⟨s, ps, hc, hor, -⟩ := Path.components_eq_opening h
  rw [stepsOf_of_cut hc]
  split
  · exact hor.resolve_left fun h => h ‹_›
  · exact List.cons_ne_nil _ _

/-! ## §3. Following. -/

theorem follow_append (top : Node) (place : List String) (n : Node) (ss ts : List String) :
    follow top place n (ss ++ ts) =
      (follow top place n ss).bind fun r => follow top r.1 r.2 ts := by
  induction ss generalizing place n with
  | nil => rfl
  | cons s ss ih =>
    rw [List.cons_append]
    cases n with
    | file c => rfl
    | directory es =>
      simp only [follow]
      split
      · exact ih place _
      · split
        · cases top.find? place.dropLast with
          | none => rfl
          | some m => exact ih _ m
        · cases Node.child? s es with
          | none => rfl
          | some m => exact ih _ m

theorem follow_cons (top : Node) (place : List String) (n : Node) (s : String) (ss : List String) :
    follow top place n (s :: ss) =
      (follow top place n [s]).bind fun r => follow top r.1 r.2 ss :=
  follow_append top place n [s] ss

theorem void_eq_not_moves (s : String) : (s == "" || s == ".") = !moves s := by
  unfold moves
  rw [bne, bne, Bool.not_and, Bool.not_not, Bool.not_not]

/-- A step that stays where it is does so in every directory. -/
theorem follow_still {top : Node} {place : List String} {es : List (String × Node)} {s : String}
    (hs : moves s = false) :
    follow top place (.directory es) [s] = .ok (place, .directory es) := by
  simp only [follow]
  rw [void_eq_not_moves, hs]
  rfl

/-- The place that a step leads to from a place. -/
def stepPlace (place : List String) (s : String) : List String :=
  if moves s = false then place else if s = ".." then place.dropLast else place ++ [s]

/-- **A step from a directory of the tree** leads to what is in the tree at the next place. -/
theorem follow_step {top : Node} {place : List String} {es : List (String × Node)} {s : String}
    (hn : top.find? place = some (.directory es)) : follow top place (.directory es) [s] =
      match top.find? (stepPlace place s) with
      | some m => .ok (stepPlace place s, m)
      | none => .error .missing := by
  unfold stepPlace
  cases hs : moves s with
  | false => rw [follow_still hs, if_pos rfl, hn]
  | true =>
    simp only [follow, void_eq_not_moves, hs, Bool.not_true, Bool.false_eq_true, if_false,
      Bool.true_eq_false, beq_iff_eq]
    split
    · rfl
    · -- an entry of the directory is found one step further
      have hchild : top.find? (place ++ [s]) = Node.child? s es := by
        rw [Node.find?_append, hn]
        show (Node.child? s es).bind some = _
        rw [Option.bind_fun_some]
      cases hc : Node.child? s es with
      | none => simp only [hchild, hc]
      | some m => simp only [hchild, hc]

/-- Steps that stay where they are can be left out. -/
theorem follow_filter {top n : Node} {place : List String} {ss : List String}
    {r : List String × Node} (h : follow top place n ss = .ok r) :
    follow top place n (ss.filter moves) = .ok r := by
  induction ss generalizing place n with
  | nil => exact h
  | cons s ss ih =>
    cases n with
    | file c => cases h
    | directory es =>
      rw [follow_cons] at h
      cases hs : moves s with
      | false =>
        rw [follow_still hs] at h
        rw [List.filter_cons_of_neg (by rw [hs]; decide)]
        exact ih h
      | true =>
        rw [List.filter_cons_of_pos hs, follow_cons]
        cases hf : follow top place (.directory es) [s] with
        | error t => rw [hf] at h; cases h
        | ok q => rw [hf] at h; exact ih h

/-- What steps lead to is in the tree at the place that they lead to. -/
theorem find?_of_follow {top n m : Node} {place pl : List String} {ss : List String}
    (hn : top.find? place = some n) (h : follow top place n ss = .ok (pl, m)) :
    top.find? pl = some m := by
  induction ss generalizing place n with
  | nil =>
    cases h
    exact hn
  | cons s ss ih =>
    cases n with
    | file c => cases h
    | directory es =>
      rw [follow_cons, follow_step hn] at h
      cases hm : top.find? (stepPlace place s) with
      | none => rw [hm] at h; cases h
      | some k => rw [hm] at h; exact ih hm h

/-- Names are followed down the tree. -/
theorem follow_names {top n : Node} {place names : List String} (h : ∀ s ∈ names, Path.IsName s)
    {r : List String × Node} :
    follow top place n names = .ok r ↔ r.1 = place ++ names ∧ n.find? names = some r.2 := by
  induction names generalizing place n with
  | nil =>
    rw [List.append_nil]
    constructor
    · intro hf
      cases hf
      exact ⟨rfl, rfl⟩
    · rintro ⟨h1, h2⟩
      rw [show n = r.2 from Option.some.inj h2, ← h1]
      rfl
  | cons s names ih =>
    obtain ⟨h0, h1, h2, -⟩ := h s (List.mem_cons_self ..)
    have hrest : ∀ t ∈ names, Path.IsName t := fun t ht => h t (List.mem_cons_of_mem _ ht)
    cases n with
    | file c =>
      constructor
      · intro hf
        cases hf
      · rintro ⟨-, hf⟩
        cases hf
    | directory es =>
      simp only [follow]
      rw [if_neg (by simp [h0, h1]), if_neg (by simpa using h2), Node.find?_cons]
      show _ ↔ _ ∧ (Node.child? s es).bind _ = _
      cases hc : Node.child? s es with
      | none =>
        constructor
        · intro hf
          cases hf
        · rintro ⟨-, hf⟩
          cases hf
      | some m =>
        show follow top (place ++ [s]) m names = _ ↔ _ ∧ m.find? names = _
        rw [ih hrest, List.append_assoc]
        rfl

/-! ## §4. Locating. -/

theorem locate_eq_ok {d : Disk} {p : Path} {r : List String × Node} (h : d.locate p = .ok r) :
    p.text ≠ "" ∧ ∃ n, d.top.find? (d.startOf p) = some n ∧
      follow d.top (d.startOf p) n (stepsOf p) = .ok r := by
  unfold locate at h
  split at h
  · cases h
  · rename_i ht
    unfold followFrom at h
    cases hs : d.top.find? (d.startOf p) with
    | none => rw [hs] at h; cases h
    | some n =>
      rw [hs] at h
      exact ⟨by simpa using ht, n, rfl, h⟩

theorem startOf_congr {d : Disk} {p q : Path} (h : p.same q = true) :
    d.startOf p = d.startOf q := by
  have hiff : p.isAbsolute = true ↔ q.isAbsolute = true := by
    have hc := Path.same_iff.1 h
    rw [Path.isAbsolute_iff_components, Path.isAbsolute_iff_components, hc]
  unfold startOf
  by_cases hp : p.isAbsolute = true
  · rw [if_pos hp, if_pos (hiff.1 hp)]
  · rw [if_neg hp, if_neg fun hq => hp (hiff.2 hq)]

/-- **Two spellings of a path that lead somewhere lead to one place.** -/
theorem locate_congr {d : Disk} {p q : Path} {r s : List String × Node} (h : p.same q = true)
    (hp : d.locate p = .ok r) (hq : d.locate q = .ok s) : r = s := by
  obtain ⟨-, n, hn, hr⟩ := locate_eq_ok hp
  obtain ⟨-, m, hm, hs⟩ := locate_eq_ok hq
  have hc := Path.same_iff.1 h
  have hr := follow_filter hr
  have hs := follow_filter hs
  rw [filter_stepsOf] at hr hs
  rw [← startOf_congr h] at hm hs
  rw [hn] at hm
  cases hm
  rw [hc, hs] at hr
  exact (Except.ok.inj hr).symm

theorem find?_of_locate {d : Disk} {p : Path} {pl : List String} {n : Node}
    (h : d.locate p = .ok (pl, n)) : d.top.find? pl = some n := by
  obtain ⟨-, m, hm, hf⟩ := locate_eq_ok h
  exact find?_of_follow hm hf

/-- The entries of a directory have names, and different ones. -/
theorem wellFormed_of_locate {d : Disk} (hd : d.WellFormed) {p : Path} {pl : List String}
    {es : List (String × Node)} (h : d.locate p = .ok (pl, .directory es)) :
    (es.map (·.1)).Nodup ∧ ∀ e ∈ es, Path.IsName e.1 ∧ e.2.WellFormed := by
  have hwell := hd.tree.find? (find?_of_locate h)
  rwa [Node.WellFormed, Node.allWellFormed_iff] at hwell

/-- What is listed is in a directory. -/
theorem locate_of_list {d : Disk} {p : Path} {es : List (String × Node)} (h : d.list p = .ok es) :
    ∃ pl, d.locate p = .ok (pl, .directory es) := by
  unfold list at h
  split at h
  · cases h
  · rename_i pl es' hl
    cases h
    exact ⟨pl, hl⟩
  · cases h

theorem readText_eq_ok {d : Disk} {p : Path} {s : String} :
    d.readText p = .ok s ↔ ∃ pl, d.locate p = .ok (pl, .file (.text s)) := by
  unfold readText
  constructor
  · intro h
    split at h
    · cases h
    · cases h
    · cases h
    · rename_i pl t hl
      cases h
      exact ⟨pl, hl⟩
  · rintro ⟨pl, hl⟩
    rw [hl]

theorem hasFile_iff {d : Disk} {p : Path} :
    d.hasFile p = true ↔ ∃ pl c, d.locate p = .ok (pl, .file c) := by
  unfold hasFile node?
  constructor
  · intro h
    cases hl : d.locate p with
    | error e => rw [hl] at h; cases h
    | ok r =>
      obtain ⟨pl, n⟩ := r
      rw [hl] at h
      cases n with
      | file c => exact ⟨pl, c, rfl⟩
      | directory es => cases h
  · rintro ⟨pl, c, hl⟩
    rw [hl]
    rfl

theorem hasDirectory_iff {d : Disk} {p : Path} :
    d.hasDirectory p = true ↔ ∃ pl es, d.locate p = .ok (pl, .directory es) := by
  unfold hasDirectory node?
  constructor
  · intro h
    cases hl : d.locate p with
    | error e => rw [hl] at h; cases h
    | ok r =>
      obtain ⟨pl, n⟩ := r
      rw [hl] at h
      cases n with
      | file c => cases h
      | directory es => exact ⟨pl, es, rfl⟩
  · rintro ⟨pl, es, hl⟩
    rw [hl]
    rfl

/-! ## §5. The name of a file. -/

/-- The last step to a file is its name in the directory that the other steps lead to. -/
theorem follow_append_singleton_eq_file {top n : Node} {place pl : List String} {s : String}
    {ss : List String} {c : Content} (htop : ∃ es, top = .directory es)
    (hn : top.find? place = some n) (h : follow top place n (ss ++ [s]) = .ok (pl, .file c)) :
    ∃ dir es, follow top place n ss = .ok (dir, .directory es) ∧ pl = dir ++ [s] ∧
      s ≠ "" ∧ s ≠ "." ∧ s ≠ ".." ∧ Node.child? s es = some (.file c) := by
  rw [follow_append] at h
  cases hf : follow top place n ss with
  | error e => rw [hf] at h; cases h
  | ok r =>
    obtain ⟨dir, m⟩ := r
    rw [hf] at h
    have hdir := find?_of_follow hn hf
    cases m with
    | file x => cases h
    | directory es =>
      refine ⟨dir, es, rfl, ?_⟩
      change follow top dir (.directory es) [s] = _ at h
      simp only [follow] at h
      split at h
      · cases h
      · rename_i hvoid
        simp only [Bool.or_eq_true, beq_iff_eq, not_or] at hvoid
        split at h
        · -- going up leads to a directory
          exfalso
          cases hu : top.find? dir.dropLast with
          | none => rw [hu] at h; cases h
          | some k =>
            rw [hu] at h
            cases h
            rcases List.eq_nil_or_concat' dir with rfl | ⟨init, k, rfl⟩
            · obtain ⟨ds, hds⟩ := htop
              rw [hds] at hu
              cases hu
            · rw [List.dropLast_concat] at hu
              obtain ⟨ds, hds, -⟩ := Node.isDirectory_of_find?_append hdir
              rw [hds] at hu
              cases hu
        · rename_i hup
          cases hc : Node.child? s es with
          | none => rw [hc] at h; cases h
          | some k =>
            rw [hc] at h
            cases h
            exact ⟨rfl, hvoid.1, hvoid.2, by simpa using hup, rfl⟩

/-- The last step of a path to a file is a name. -/
theorem last_step {d : Disk} (hd : d.WellFormed) {p : Path} {pl : List String} {c : Content}
    (h : d.locate p = .ok (pl, .file c)) :
    ∃ ss s, stepsOf p = ss ++ [s] ∧ s ≠ "" ∧ s ≠ "." ∧ s ≠ ".." := by
  obtain ⟨ht, n, hn, hf⟩ := locate_eq_ok h
  rcases List.eq_nil_or_concat' (stepsOf p) with h0 | ⟨ss, s, hss⟩
  · exact absurd h0 (stepsOf_ne_nil ht)
  · rw [hss] at hf
    obtain ⟨-, -, -, -, h0, h1, h2, -⟩ := follow_append_singleton_eq_file hd.top hn hf
    exact ⟨ss, s, hss, h0, h1, h2⟩

/-- **A file is found by its name in the directory that it is in.** -/
theorem nameAt_of_locate {d : Disk} (hd : d.WellFormed) {p : Path} {pl : List String}
    {c : Content} (h : d.locate p = .ok (pl, .file c)) :
    ∃ dir name es, pl = dir ++ [name] ∧ d.nameAt p = .ok (dir, some name) ∧
      meansDirectory p = false ∧ d.top.find? dir = some (.directory es) := by
  obtain ⟨ht, n, hn, hf⟩ := locate_eq_ok h
  rcases List.eq_nil_or_concat' (stepsOf p) with h0 | ⟨ss, s, hss⟩
  · exact absurd h0 (stepsOf_ne_nil ht)
  · rw [hss] at hf
    obtain ⟨dir, es, hdir, rfl, h0, h1, h2, hc⟩ := follow_append_singleton_eq_file hd.top hn hf
    have hes := find?_of_follow hn hdir
    -- the last step is a name, so that no empty step is taken off behind it
    have hbare : bareSteps p = ss ++ [s] := by
      unfold bareSteps
      rw [hss, List.reverse_append, List.reverse_singleton, List.singleton_append,
        List.dropWhile_cons_of_neg (by simpa using h0), List.reverse_cons, List.reverse_reverse]
    refine ⟨dir, s, es, rfl, ?_, ?_, hes⟩
    · unfold nameAt
      rw [if_neg (by simpa using ht)]
      simp only [hbare, List.dropLast_concat, followFrom, hn, hdir, List.getLast?_concat]
      simp [h1, h2]
    · unfold meansDirectory
      rw [hbare, hss]
      simp

end Disk

end ModuleMove
