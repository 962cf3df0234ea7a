import ModuleMove.Dependents.Map
import ModuleMove.Edit.Files
import ModuleMove.Proofs.Path.Order
import Mathlib.Data.List.Induction

/-!
# LISTS KEPT BY PATH — things of one file come together, files in order

Edits are grouped by file, and references are kept by the file that they are in.  Both put things
behind those that a file has already, in a list in the order of the paths.  In the end each file is
listed once, with everything that was put in for it.

Main statements:
  * `Keyed.sorted_collect` — the files are in order, each once.
  * `Keyed.mem_collect` — a file is listed with everything of it, in the order it came in.
-/

namespace ModuleMove

namespace Keyed

variable {α : Type}

/-- Puts things behind those that a file has already. -/
def put (k : Path) (xs : List α) : List (Path × List α) → List (Path × List α)
  | [] => [(k, xs)]
  | (p, ys) :: gs =>
    match k.compare p with
    | .lt => (k, xs) :: (p, ys) :: gs
    | .eq => (p, ys ++ xs) :: gs
    | .gt => (p, ys) :: put k xs gs

/-- The lists of some items, file by file. -/
def collect (items : List (Path × List α)) : List (Path × List α) :=
  items.foldl (fun gs i => put i.1 i.2 gs) []

/-- The files are in order, each once. -/
def Sorted (gs : List (Path × List α)) : Prop := gs.Pairwise fun a b => a.1.compare b.1 = .lt

/-! ## §1. Putting in. -/

theorem fst_of_mem_put {k p : Path} {xs g : List α} {gs : List (Path × List α)}
    (h : (p, g) ∈ put k xs gs) : p = k ∨ ∃ h, (p, h) ∈ gs := by
  induction gs with
  | nil =>
    rw [put, List.mem_singleton] at h
    exact .inl (congrArg Prod.fst h)
  | cons a gs ih =>
    obtain ⟨q, ys⟩ := a
    rw [put] at h
    split at h
    · rcases List.mem_cons.1 h with h | h
      · exact .inl (congrArg Prod.fst h)
      · exact .inr ⟨g, h⟩
    · rcases List.mem_cons.1 h with h | h
      · cases h
        exact .inr ⟨ys, List.mem_cons_self ..⟩
      · exact .inr ⟨g, List.mem_cons_of_mem _ h⟩
    · rcases List.mem_cons.1 h with h | h
      · exact .inr ⟨g, h ▸ List.mem_cons_self ..⟩
      · exact (ih h).imp_right fun ⟨x, hx⟩ => ⟨x, List.mem_cons_of_mem _ hx⟩

theorem sorted_put {k : Path} {xs : List α} {gs : List (Path × List α)} (h : Sorted gs) :
    Sorted (put k xs gs) := by
  induction gs with
  | nil => exact List.pairwise_singleton ..
  | cons a gs ih =>
    obtain ⟨q, ys⟩ := a
    obtain ⟨ha, hs⟩ := List.pairwise_cons.1 h
    rw [put]
    split
    · rename_i hk
      refine List.pairwise_cons.2 ⟨?_, h⟩
      intro b hb
      rcases List.mem_cons.1 hb with rfl | hb
      · exact hk
      · exact Path.compare_lt_trans hk (ha b hb)
    · exact List.pairwise_cons.2 ⟨ha, hs⟩
    · rename_i hk
      refine List.pairwise_cons.2 ⟨?_, ih hs⟩
      rintro ⟨p, g⟩ hb
      -- further on there are the keys of the list, and the one that is put in
      rcases fst_of_mem_put hb with rfl | ⟨x, hx⟩
      · exact Path.compare_lt_of_gt hk
      · exact ha (p, x) hx

/-- Files further on in a sorted list are not the first one. -/
theorem Sorted.ne_head {a : Path × List α} {gs : List (Path × List α)} (h : Sorted (a :: gs)) :
    ∀ b ∈ gs, a.1.same b.1 = false := by
  intro b hb
  refine Path.same_eq_false ?_
  rw [(List.pairwise_cons.1 h).1 b hb]
  decide

/-- What comes before the first file of a sorted list is not in it. -/
theorem Sorted.ne_of_lt {k : Path} {a : Path × List α} {gs : List (Path × List α)}
    (h : Sorted (a :: gs)) (hk : k.compare a.1 = .lt) : ∀ b ∈ a :: gs, k.same b.1 = false := by
  intro b hb
  have hlt : k.compare b.1 = .lt := by
    rcases List.mem_cons.1 hb with rfl | hb
    · exact hk
    · exact Path.compare_lt_trans hk ((List.pairwise_cons.1 h).1 b hb)
  refine Path.same_eq_false ?_
  rw [hlt]
  decide

/-- Each file is listed once, so that those further on are not one that is the first. -/
theorem Sorted.ne_of_same {k : Path} {a : Path × List α} {gs : List (Path × List α)}
    (h : Sorted (a :: gs)) (hk : k.same a.1 = true) : ∀ b ∈ gs, k.same b.1 = false := by
  intro b hb
  rw [Bool.eq_false_iff]
  intro hsame
  have hne := h.ne_head b hb
  rw [Path.same_trans (Path.same_symm hk) hsame] at hne
  cases hne

theorem compare_lt_irrefl (p : Path) : p.compare p ≠ .lt := by
  rw [Path.compare_eq_iff.2 (Path.same_refl p)]
  decide

/-- Lists in order that list the same are equal. -/
theorem Sorted.eq_of_mem_iff {gs hs : List (Path × List α)} (hgs : Sorted gs) (hhs : Sorted hs)
    (h : ∀ a, a ∈ gs ↔ a ∈ hs) : gs = hs := by
  have hnodup : ∀ {ks : List (Path × List α)}, Sorted ks → ks.Nodup := fun hks =>
    hks.imp fun {a b} hlt hab => by
      subst hab
      exact compare_lt_irrefl _ hlt
  have hperm : gs.Perm hs := (List.perm_ext_iff_of_nodup (hnodup hgs) (hnodup hhs)).2 h
  unfold Sorted at hgs hhs
  refine hperm.eq_of_pairwise ?_ hgs hhs
  intro a b _ _ hab hba
  exact absurd (Path.compare_lt_trans hab hba) (compare_lt_irrefl a.1)

/-- What is listed after something has been put in. -/
theorem mem_put {k p : Path} {xs g : List α} {gs : List (Path × List α)} (hs : Sorted gs) :
    (p, g) ∈ put k xs gs ↔
      ((p, g) ∈ gs ∧ k.same p = false) ∨ (∃ h, (p, h) ∈ gs ∧ k.same p = true ∧ g = h ++ xs) ∨
        (p = k ∧ g = xs ∧ ∀ b ∈ gs, k.same b.1 = false) := by
  induction gs with
  | nil => simp [put]
  | cons a gs ih =>
    obtain ⟨q, ys⟩ := a
    rw [put]
    cases hk : k.compare q with
    | lt =>
      -- nothing of the file is listed, neither here nor further on
      have hnone := hs.ne_of_lt hk
      show (p, g) ∈ (k, xs) :: (q, ys) :: gs ↔ _
      rw [List.mem_cons]
      constructor
      · rintro (h | h)
        · cases h
          exact .inr (.inr ⟨rfl, rfl, hnone⟩)
        · exact .inl ⟨h, hnone (p, g) h⟩
      · rintro (⟨h, -⟩ | ⟨h, hm, hsame, -⟩ | ⟨rfl, rfl, -⟩)
        · exact .inr h
        · rw [hnone (p, h) hm] at hsame
          cases hsame
        · exact .inl rfl
    | eq =>
      have hkq := Path.compare_eq_iff.1 hk
      have hrest := hs.ne_of_same hkq
      show (p, g) ∈ (q, ys ++ xs) :: gs ↔ _
      rw [List.mem_cons]
      constructor
      · rintro (h | h)
        · cases h
          exact .inr (.inl ⟨ys, List.mem_cons_self .., hkq, rfl⟩)
        · exact .inl ⟨List.mem_cons_of_mem _ h, hrest (p, g) h⟩
      · rintro (⟨h, hsame⟩ | ⟨h, hm, hsame, rfl⟩ | ⟨-, -, hall⟩)
        · rcases List.mem_cons.1 h with h | h
          · cases h
            rw [hkq] at hsame
            cases hsame
          · exact .inr h
        · rcases List.mem_cons.1 hm with hm | hm
          · cases hm
            exact .inl rfl
          · rw [hrest (p, h) hm] at hsame
            cases hsame
        · rw [hall _ (List.mem_cons_self ..)] at hkq
          cases hkq
    | gt =>
      have hkq : k.same q = false := Path.same_eq_false (by rw [hk]; decide)
      show (p, g) ∈ (q, ys) :: put k xs gs ↔ _
      rw [List.mem_cons, ih (List.pairwise_cons.1 hs).2]
      constructor
      · rintro (h | ⟨h, hsame⟩ | ⟨h, hm, hsame, rfl⟩ | ⟨rfl, rfl, hall⟩)
        · cases h
          exact .inl ⟨List.mem_cons_self .., hkq⟩
        · exact .inl ⟨List.mem_cons_of_mem _ h, hsame⟩
        · exact .inr (.inl ⟨h, List.mem_cons_of_mem _ hm, hsame, rfl⟩)
        · exact .inr (.inr ⟨rfl, rfl, List.forall_mem_cons.2 ⟨hkq, hall⟩⟩)
      · rintro (⟨h, hsame⟩ | ⟨h, hm, hsame, rfl⟩ | ⟨rfl, rfl, hall⟩)
        · rcases List.mem_cons.1 h with h | h
          · exact .inl h
          · exact .inr (.inl ⟨h, hsame⟩)
        · rcases List.mem_cons.1 hm with hm | hm
          · cases hm
            rw [hkq] at hsame
            cases hsame
          · exact .inr (.inr (.inl ⟨h, hm, hsame, rfl⟩))
        · exact .inr (.inr (.inr ⟨rfl, rfl, fun b hb => hall b (List.mem_cons_of_mem _ hb)⟩))

/-! ## §2. Collecting. -/

theorem collect_concat (items : List (Path × List α)) (i : Path × List α) :
    collect (items ++ [i]) = put i.1 i.2 (collect items) := by
  unfold collect
  rw [List.foldl_append]
  rfl

/-- **The files are in order, each once.** -/
theorem sorted_collect (items : List (Path × List α)) : Sorted (collect items) := by
  induction items using List.reverseRecOn with
  | nil => exact List.Pairwise.nil
  | append_singleton items i ih =>
    rw [collect_concat]
    exact sorted_put ih

/-- Each item is in the list of a file. -/
theorem exists_mem_collect {items : List (Path × List α)} {i : Path × List α} (h : i ∈ items) :
    ∃ p g, (p, g) ∈ collect items ∧ i.1.same p = true := by
  induction items using List.reverseRecOn with
  | nil => cases h
  | append_singleton items j ih =>
    rw [collect_concat]
    have hs := sorted_collect items
    rcases List.mem_append.1 h with h | h
    · obtain ⟨p, g, hm, hsame⟩ := ih h
      by_cases hj : j.1.same p = true
      · exact ⟨p, g ++ j.2, (mem_put hs).2 (.inr (.inl ⟨g, hm, hj, rfl⟩)), hsame⟩
      · exact ⟨p, g, (mem_put hs).2 (.inl ⟨hm, by simpa using hj⟩), hsame⟩
    · rw [List.mem_singleton] at h
      subst h
      -- the item joins its key if that is there, and brings it along if not
      by_cases hex : ∃ b ∈ collect items, i.1.same b.1 = true
      · obtain ⟨⟨p, g⟩, hm, hsame⟩ := hex
        exact ⟨p, g ++ i.2, (mem_put hs).2 (.inr (.inl ⟨g, hm, hsame, rfl⟩)), hsame⟩
      · refine ⟨i.1, i.2, (mem_put hs).2 (.inr (.inr ⟨rfl, rfl, ?_⟩)), Path.same_refl _⟩
        intro b hb
        rw [Bool.eq_false_iff]
        exact fun hsame => hex ⟨b, hb, hsame⟩

/-- Nothing of a file that is not listed came in. -/
theorem filter_eq_nil_of_collect {items : List (Path × List α)} {k : Path}
    (h : ∀ b ∈ collect items, k.same b.1 = false) :
    items.filter (fun j => j.1.same k) = [] := by
  rw [List.filter_eq_nil_iff]
  intro j hj hsame
  obtain ⟨q, y, hq, hjq⟩ := exists_mem_collect hj
  have := h _ hq
  rw [Path.same_trans (Path.same_symm hsame) hjq] at this
  cases this

/-- **A file is listed with everything of it**, in the order in which it came in. -/
theorem mem_collect {items : List (Path × List α)} {p : Path} {g : List α}
    (h : (p, g) ∈ collect items) :
    g = (items.filter fun i => i.1.same p).flatMap (·.2) ∧ ∃ i ∈ items, i.1 = p := by
  induction items using List.reverseRecOn generalizing g with
  | nil => cases h
  | append_singleton items i ih =>
    rw [collect_concat] at h
    -- one more item adds to what its own key has gathered
    have hsplit : ∀ ys, ((items ++ [i]).filter fun j => j.1.same p).flatMap (·.2) = ys ↔
        (items.filter fun j => j.1.same p).flatMap (·.2)
          ++ (if i.1.same p then i.2 else []) = ys := by
      intro ys
      rw [List.filter_append, List.flatMap_append]
      cases hi : i.1.same p <;> simp [hi]
    rw [eq_comm, hsplit]
    rcases (mem_put (sorted_collect items)).1 h with ⟨hm, hsame⟩ | ⟨x, hm, hsame, rfl⟩ |
        ⟨rfl, rfl, hall⟩
    · obtain ⟨rfl, j, hj, rfl⟩ := ih hm
      rw [hsame]
      exact ⟨by simp, j, List.mem_append_left _ hj, rfl⟩
    · obtain ⟨rfl, j, hj, rfl⟩ := ih hm
      rw [hsame]
      exact ⟨by simp, j, List.mem_append_left _ hj, rfl⟩
    · rw [filter_eq_nil_of_collect hall, Path.same_refl]
      exact ⟨by simp, i, List.mem_append_right _ (List.mem_singleton_self _), rfl⟩

/-- A file is listed under the path that it came in with first. -/
theorem head?_of_mem_collect {items : List (Path × List α)} {p : Path} {g : List α}
    (h : (p, g) ∈ collect items) :
    ((items.filter fun i => i.1.same p).map (·.1)).head? = some p := by
  induction items using List.reverseRecOn generalizing g with
  | nil => cases h
  | append_singleton items i ih =>
    -- what comes in later does not change what came in first
    have hkeep : ∀ {x}, (p, x) ∈ collect items →
        (((items ++ [i]).filter fun j => j.1.same p).map (·.1)).head? = some p := by
      intro x hx
      rw [List.filter_append, List.map_append, List.head?_append, ih hx]
      rfl
    rw [collect_concat] at h
    rcases (mem_put (sorted_collect items)).1 h with ⟨hm, -⟩ | ⟨x, hm, -, -⟩ | ⟨rfl, -, hall⟩
    · exact hkeep hm
    · exact hkeep hm
    · rw [List.filter_append, filter_eq_nil_of_collect hall, List.nil_append, List.filter_cons,
        if_pos (Path.same_refl i.1)]
      rfl

/-- All that is listed after something has been put in. -/
theorem perm_flatMap_put (k : Path) (xs : List α) (gs : List (Path × List α)) :
    ((put k xs gs).flatMap (·.2)).Perm (gs.flatMap (·.2) ++ xs) := by
  induction gs with
  | nil => simp [put]
  | cons a gs ih =>
    obtain ⟨p, ys⟩ := a
    rw [put]
    split
    · exact List.perm_append_comm
    · simp only [List.flatMap_cons, List.append_assoc]
      exact List.perm_append_comm.append_left ys
    · simp only [List.flatMap_cons, List.append_assoc]
      exact ih.append_left ys

/-- **Nothing is lost and nothing is listed twice.** -/
theorem perm_flatMap_collect (items : List (Path × List α)) :
    ((collect items).flatMap (·.2)).Perm (items.flatMap (·.2)) := by
  induction items using List.reverseRecOn with
  | nil => exact .refl _
  | append_singleton items i ih =>
    rw [collect_concat, List.flatMap_append, List.flatMap_singleton]
    exact (perm_flatMap_put i.1 i.2 _).trans (ih.append_right i.2)

theorem filter_same {items : List (Path × List α)} {i : Path × List α}
    (h : items.Pairwise fun a b => a.1.same b.1 = false) (hi : i ∈ items) :
    items.filter (fun j => j.1.same i.1) = [i] := by
  induction items with
  | nil => cases hi
  | cons j items ih =>
    obtain ⟨hj, hrest⟩ := List.pairwise_cons.1 h
    rcases List.mem_cons.1 hi with rfl | hi
    · have hnone : items.filter (fun j => j.1.same i.1) = [] := by
        rw [List.filter_eq_nil_iff]
        intro k hk hs
        have := hj k hk
        rw [Path.same_symm hs] at this
        cases this
      rw [List.filter_cons, if_pos (Path.same_refl i.1), hnone]
    · rw [List.filter_cons_of_neg (by rw [hj i hi]; decide), ih hrest hi]

/-- Items of different files are listed as they are. -/
theorem mem_collect_iff {items : List (Path × List α)}
    (h : items.Pairwise fun a b => a.1.same b.1 = false) {p : Path} {g : List α} :
    (p, g) ∈ collect items ↔ (p, g) ∈ items := by
  have hself : ∀ i ∈ items, (items.filter fun j => j.1.same i.1).flatMap (·.2) = i.2 := by
    intro i hi
    rw [filter_same h hi]
    exact List.append_nil _
  constructor
  · intro hm
    obtain ⟨hg, i, hi, rfl⟩ := mem_collect hm
    rw [hself i hi] at hg
    rwa [hg]
  · intro hm
    obtain ⟨q, y, hq, hs⟩ := exists_mem_collect hm
    obtain ⟨hy, i, hi, rfl⟩ := mem_collect hq
    rw [Path.eq_of_same Prod.fst h hm hi hs] at *
    rw [hself i hi] at hy
    rwa [hy] at hq

end Keyed

/-! ## §3. The two uses. -/

theorem addToFile_eq_put (e : Edit) (gs : List (Path × List Edit)) :
    addToFile e gs = Keyed.put e.target [e] gs := by
  induction gs with
  | nil => rfl
  | cons a gs ih =>
    obtain ⟨p, es⟩ := a
    cases h : e.target.compare p <;> simp only [addToFile, Keyed.put, h, ih]

theorem editsByFile_eq_collect (es : List Edit) :
    editsByFile es = Keyed.collect (es.map fun e => (e.target, [e])) := by
  unfold editsByFile Keyed.collect
  rw [List.foldl_map]
  congr 1
  funext gs e
  exact addToFile_eq_put e gs

/-- **Each file is listed with its edits**, in the order in which they were given. -/
theorem mem_editsByFile {es : List Edit} {p : Path} {g : List Edit} (h : (p, g) ∈ editsByFile es) :
    g = (es.filter fun e => e.target.same p) ∧ ∃ e ∈ es, e.target = p := by
  rw [editsByFile_eq_collect] at h
  obtain ⟨hg, i, hi, hp⟩ := Keyed.mem_collect h
  obtain ⟨e, he, rfl⟩ := List.mem_map.1 hi
  refine ⟨?_, e, he, hp⟩
  rw [hg, List.filter_map, List.flatMap_map]
  exact List.flatMap_singleton' _

/-- Each edit is among those of a file. -/
theorem exists_mem_editsByFile {es : List Edit} {e : Edit} (h : e ∈ es) :
    ∃ p g, (p, g) ∈ editsByFile es ∧ e.target.same p = true := by
  rw [editsByFile_eq_collect]
  exact Keyed.exists_mem_collect (List.mem_map_of_mem h)

/-- A file is listed under the path that its first edit names. -/
theorem head?_of_mem_editsByFile {es : List Edit} {p : Path} {g : List Edit}
    (h : (p, g) ∈ editsByFile es) : (g.map (·.target)).head? = some p := by
  rw [(mem_editsByFile h).1]
  rw [editsByFile_eq_collect] at h
  have hhead := Keyed.head?_of_mem_collect h
  rw [List.filter_map, List.map_map] at hhead
  exact hhead

/-- Each edit is listed once. -/
theorem perm_editsByFile (es : List Edit) : ((editsByFile es).flatMap (·.2)).Perm es := by
  rw [editsByFile_eq_collect]
  refine (Keyed.perm_flatMap_collect _).trans ?_
  rw [List.flatMap_map]
  exact .of_eq (List.flatMap_singleton' es)

theorem sorted_editsByFile (es : List Edit) : Keyed.Sorted (editsByFile es) := by
  rw [editsByFile_eq_collect]
  exact Keyed.sorted_collect _

namespace DependencyMap

theorem insertEntry_eq_put (file : Path) (rs : List Reference)
    (es : List (Path × List Reference)) : insertEntry file rs es = Keyed.put file rs es := by
  induction es with
  | nil => rfl
  | cons a es ih =>
    obtain ⟨p, qs⟩ := a
    cases h : file.compare p <;> simp only [insertEntry, Keyed.put, h, ih]

/-- A map that is made file by file lists what was put in. -/
theorem entries_foldl_insert (items : List (Path × List Reference)) :
    (items.foldl (fun m i => m.insert i.1 i.2) empty).entries
      = Keyed.collect (items.filter fun i => !i.2.isEmpty) := by
  induction items using List.reverseRecOn with
  | nil => rfl
  | append_singleton items i ih =>
    rw [List.foldl_append, List.filter_append]
    rw [List.foldl_cons, List.foldl_nil, insert]
    cases hi : i.2.isEmpty with
    | true =>
      rw [if_pos rfl, ih, List.filter_cons_of_neg (by rw [hi]; decide), List.filter_nil,
        List.append_nil]
    | false =>
      rw [if_neg (by decide), List.filter_cons_of_pos (by rw [hi]; rfl), List.filter_nil,
        Keyed.collect_concat, ← ih]
      exact insertEntry_eq_put ..

end DependencyMap

end ModuleMove
