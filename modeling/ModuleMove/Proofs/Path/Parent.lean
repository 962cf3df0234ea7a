import ModuleMove.Proofs.Path.Components

/-!
# PARENTS — the last component of a path, and the rest

A path with a last component besides the root has a parent, which is the path without it.  Pieces
at the end that stand for nothing do not count.

Main statements:
  * `Path.parent?_eq_some` — the parent has all components but the last one.
  * `Path.fileName?_eq_some_iff` — the name at the end is the last component.
-/

namespace ModuleMove

namespace Path

/-! ## §1. Pieces that stand for nothing. -/

theorem componentOf?_of_void {s : String} (h : s = "" ∨ s = ".") : componentOf? s = none := by
  rcases h with rfl | rfl <;> rfl

theorem filterMap_of_void {vs : List String} (h : ∀ v ∈ vs, v = "" ∨ v = ".") :
    vs.filterMap componentOf? = [] :=
  List.filterMap_eq_nil_iff.2 fun v hv => componentOf?_of_void (h v hv)

/-- What is dropped at the end stands for nothing, and what is left ends in a piece that stands for
    something, or is the first piece. -/
theorem exists_dropVoid {rps : List String} (h : rps ≠ []) :
    ∃ vs s r, rps = vs ++ s :: r ∧ dropVoid rps = s :: r ∧ (∀ v ∈ vs, v = "" ∨ v = ".") ∧
      (r ≠ [] → s ≠ "" ∧ s ≠ ".") := by
  fun_induction dropVoid rps with
  | case1 s t r hv ih =>
    obtain ⟨vs, u, q, h1, h2, h3, h4⟩ := ih (by simp)
    refine ⟨s :: vs, u, q, by rw [h1]; rfl, h2, ?_, h4⟩
    rw [List.forall_mem_cons]
    exact ⟨by simpa using hv, h3⟩
  | case2 s t r hv =>
    refine ⟨[], s, t :: r, rfl, rfl, by simp, fun _ => ?_⟩
    simpa using hv
  | case3 r hr =>
    cases r with
    | nil => exact absurd rfl h
    | cons s r =>
      cases r with
      | nil => exact ⟨[], s, [], rfl, rfl, by simp, fun hn => absurd rfl hn⟩
      | cons t r => exact absurd rfl (hr s t r)

/-! ## §2. The last component. -/

theorem exists_componentOf? {s : String} (hs : s ≠ "" ∧ s ≠ ".") (hslash : '/' ∉ s.toList) :
    ∃ c, componentOf? s = some c ∧ c ≠ .root := by
  by_cases hup : s = ".."
  · subst hup
    exact ⟨.up, rfl, by decide⟩
  · exact ⟨.name s, componentOf?_name ⟨hs.1, hs.2, hup, hslash⟩, by simp⟩

/-- The components that pieces stand for if the last of them stands for one. -/
theorem componentsOf_append_singleton {ps : List String} {s : String} (hs : s ≠ "" ∧ s ≠ ".")
    (h : ps ≠ []) (hslash : '/' ∉ s.toList) : ∃ c, c ≠ Component.root ∧
      componentsOf (ps ++ [s]) = (if ps = [""] then [.root] else componentsOf ps) ++ [c] := by
  obtain ⟨c, hc, hroot⟩ := exists_componentOf? hs hslash
  refine ⟨c, hroot, ?_⟩
  cases ps with
  | nil => exact absurd rfl h
  | cons p ps =>
    have hsing : [s].filterMap componentOf? = [c] := List.filterMap_cons_some hc
    by_cases hp : p = "" ∧ ps = []
    · obtain ⟨rfl, rfl⟩ := hp
      rw [if_pos rfl, List.cons_append, componentsOf_cons (.inr (by simp)), List.nil_append, hsing]
      rfl
    · have hne : p ≠ "" ∨ ps ≠ [] := by tauto
      rw [componentsOf_append hne, hsing, if_neg]
      intro heq
      obtain ⟨rfl, rfl⟩ := List.cons.inj heq
      exact hp ⟨rfl, rfl⟩

/-- Pieces at the end that stand for nothing do not count. -/
theorem componentsOf_append_void {s : String} {ps vs : List String} (h : s ≠ "" ∨ ps ≠ [])
    (hv : ∀ v ∈ vs, v = "" ∨ v = ".") : componentsOf (s :: ps ++ vs) = componentsOf (s :: ps) := by
  rw [componentsOf_append h, filterMap_of_void hv, List.append_nil]

/-! ## §3. Parents. -/

section

variable {p : Path} {s : String}

theorem parent?_of_single (h : dropVoid (cutText '/' p.text).reverse = [s]) :
    p.parent? = if s = "" then none else some ⟨""⟩ := by
  unfold parent?
  rw [h]
  by_cases hs : s = ""
  · rw [if_pos hs, hs]
    rfl
  · rw [if_neg hs]
    split
    · rename_i heq
      cases heq
    · rename_i heq
      exact absurd (List.cons.inj heq).1 hs
    · rename_i heq
      obtain ⟨-, rfl⟩ := List.cons.inj heq
      rfl

theorem parent?_of_more {t u : String} {r q : List String}
    (h : dropVoid (cutText '/' p.text).reverse = s :: t :: r) (h' : dropVoid (t :: r) = u :: q) :
    p.parent? = some (if u :: q = [""] then ⟨"/"⟩ else ⟨joinText '/' (u :: q).reverse⟩) := by
  unfold parent?
  rw [h]
  split
  · rename_i heq
    cases heq
  · rename_i heq
    cases heq
  · rename_i heq
    obtain ⟨rfl, rfl⟩ := List.cons.inj heq
    rw [h']
    split
    · rename_i heq
      rw [if_pos heq]
    · rename_i hno
      rw [if_neg hno]

/-- A path with one piece that counts is empty, the root, or has one component. -/
theorem parent?_cases_single {vs : List String} (hcut : cutText '/' p.text = s :: vs)
    (h : dropVoid (cutText '/' p.text).reverse = [s]) (hv : ∀ v ∈ vs, v = "" ∨ v = ".") :
    (p.parent? = none ∧ (p.components = [] ∨ p.components = [.root])) ∨
      ∃ q c, p.parent? = some q ∧ p.components = [c] ∧ c ≠ .root ∧ q.components = [] := by
  rw [parent?_of_single h]
  unfold components
  rw [hcut]
  -- the piece stands for the root, or for the only component
  by_cases hs0 : s = ""
  · subst hs0
    left
    refine ⟨rfl, ?_⟩
    cases vs with
    | nil => exact .inl rfl
    | cons v vs =>
      rw [componentsOf_cons (.inr (by simp)), filterMap_of_void hv]
      exact .inr rfl
  · right
    rw [if_neg hs0, componentsOf_cons (.inl hs0), filterMap_of_void hv, List.append_nil]
    unfold opening
    split
    · exact absurd rfl hs0
    · exact ⟨_, .current, rfl, rfl, by decide, rfl⟩
    · rename_i hdot
      have hslash : '/' ∉ s.toList := not_mem_of_mem_cutText (s := p.text) (by rw [hcut]; simp)
      obtain ⟨c, hc, hroot⟩ := exists_componentOf? ⟨hs0, hdot⟩ hslash
      rw [hc]
      exact ⟨_, c, rfl, rfl, hroot, rfl⟩

/-- A path with several pieces that count has a last component. -/
theorem parent?_cases_more {t u : String} {r q vs ws : List String}
    (hcut : cutText '/' p.text = (ws ++ u :: q).reverse ++ s :: vs)
    (h : dropVoid (cutText '/' p.text).reverse = s :: t :: r) (h' : dropVoid (t :: r) = u :: q)
    (hs : s ≠ "" ∧ s ≠ ".") (hv : ∀ v ∈ vs, v = "" ∨ v = ".") (hw : ∀ w ∈ ws, w = "" ∨ w = ".") :
    ∃ q cs c, p.parent? = some q ∧ p.components = cs ++ [c] ∧ c ≠ .root ∧ q.components = cs := by
  have hslash : ∀ v ∈ (ws ++ u :: q).reverse ++ s :: vs, '/' ∉ v.toList := by
    rw [← hcut]
    exact fun v => not_mem_of_mem_cutText
  rw [parent?_of_more h h']
  unfold components
  rw [hcut]
  obtain ⟨c, hroot, hc⟩ := componentsOf_append_singleton hs
    (show (ws ++ u :: q).reverse ≠ [] by simp) (hslash s (by simp))
  have hcs : componentsOf ((ws ++ u :: q).reverse ++ s :: vs)
      = (if (ws ++ u :: q).reverse = [""] then [.root]
          else componentsOf (ws ++ u :: q).reverse) ++ [c] := by
    rw [← hc, List.append_cons]
    cases hh : (ws ++ u :: q).reverse with
    | nil => simp at hh
    | cons a b => exact componentsOf_append_void (.inr (by simp)) hv
  refine ⟨_, _, c, rfl, hcs, hroot, ?_⟩
  -- what is kept, without the void pieces before the last one
  have hws : ∀ v ∈ ws.reverse, v = "" ∨ v = "." := fun v hv => hw v (List.mem_reverse.1 hv)
  have hrev : (u :: q).reverse ≠ [] := by simp
  have hclean : ∀ v ∈ (u :: q).reverse, '/' ∉ v.toList := by
    intro v hv
    apply hslash
    simp only [List.mem_append, List.mem_reverse] at hv ⊢
    exact .inl (.inr hv)
  rw [List.reverse_append]
  -- what is kept is the root of the tree, or is written without it
  by_cases huq : u :: q = [""]
  · rw [if_pos huq, huq]
    cases hw : ws.reverse with
    | nil => rfl
    | cons v vs' =>
      rw [hw] at hws
      have h1 : ([""] : List String).reverse ++ v :: vs' = "" :: (v :: vs') := rfl
      rw [h1, if_neg (by simp), componentsOf_cons (.inr (by simp)), filterMap_of_void hws]
      rfl
  · have hkeep : (u :: q).reverse ≠ [""] := by
      intro heq
      apply huq
      rw [← List.reverse_reverse (u :: q), heq]
      rfl
    have hne : (u :: q).reverse ++ ws.reverse ≠ [""] := by
      intro heq
      rcases List.append_eq_singleton_iff.1 heq with ⟨h, -⟩ | ⟨h, -⟩
      · exact hrev h
      · exact hkeep h
    rw [if_neg huq, if_neg hne, cutText_joinText hrev hclean]
    cases hh : (u :: q).reverse with
    | nil => exact absurd hh hrev
    | cons a b =>
      rw [hh] at hkeep
      refine (componentsOf_append_void ?_ hws).symm
      by_contra hn
      rw [not_or, not_ne_iff, not_ne_iff] at hn
      exact hkeep (by rw [hn.1, hn.2])

end

/-- A path has a parent unless it is empty or the root. -/
theorem parent?_cases (p : Path) :
    (p.parent? = none ∧ (p.components = [] ∨ p.components = [.root])) ∨
      ∃ q cs c, p.parent? = some q ∧ p.components = cs ++ [c] ∧ c ≠ .root ∧ q.components = cs := by
  have hne : (cutText '/' p.text).reverse ≠ [] := by
    rw [Ne, List.reverse_eq_nil_iff]
    exact cutText_ne_nil _ _
  obtain ⟨vs, s, r, hrev, hdrop, hvs, hs⟩ := exists_dropVoid hne
  have hcut : cutText '/' p.text = r.reverse ++ s :: vs.reverse := by
    rw [← List.reverse_reverse (cutText '/' p.text), hrev]
    simp
  have hvs : ∀ v ∈ vs.reverse, v = "" ∨ v = "." := fun v hv => hvs v (List.mem_reverse.1 hv)
  cases r with
  | nil =>
    rcases parent?_cases_single hcut hdrop hvs with h | ⟨q, c, h1, h2, h3, h4⟩
    · exact .inl h
    · exact .inr ⟨q, [], c, h1, h2, h3, h4⟩
  | cons t r =>
    obtain ⟨ws, u, q, hr, hdrop', hws, -⟩ := exists_dropVoid (List.cons_ne_nil t r)
    rw [hr] at hcut
    exact .inr (parent?_cases_more hcut hdrop hdrop' (hs (by simp)) hvs hws)

/-- **The parent has all components but the last one.** -/
theorem parent?_eq_some {p : Path} {cs : List Component} {c : Component}
    (h : p.components = cs ++ [c]) (hc : c ≠ .root) :
    ∃ q, p.parent? = some q ∧ q.components = cs := by
  rcases parent?_cases p with ⟨-, h' | h'⟩ | ⟨q, ds, d, hq, h', -, hds⟩
  · rw [h] at h'
    simp at h'
  · rw [h] at h'
    rw [List.append_eq_singleton_iff] at h'
    simp [hc] at h'
  · rw [h] at h'
    obtain ⟨rfl, -⟩ := List.append_inj' h' rfl
    exact ⟨q, hq, hds⟩

theorem components_of_parent? {p q : Path} (h : p.parent? = some q) :
    ∃ c, c ≠ .root ∧ p.components = q.components ++ [c] := by
  rcases parent?_cases p with ⟨h', -⟩ | ⟨r, ds, d, hr, h', hd, hds⟩
  · rw [h'] at h
    cases h
  · rw [hr] at h
    cases h
    exact ⟨d, hd, by rw [h', hds]⟩

/-! ## §4. Names at the end. -/

/-- **The name at the end of a path is its last component.** -/
theorem fileName?_eq_some_iff {p : Path} {s : String} :
    p.fileName? = some s ↔ ∃ cs, p.components = cs ++ [.name s] := by
  unfold fileName?
  constructor
  · intro h
    split at h
    · rename_i t ht
      cases h
      exact List.getLast?_eq_some_iff.1 ht
    · cases h
  · rintro ⟨cs, hcs⟩
    rw [List.getLast?_eq_some_iff.2 ⟨cs, hcs⟩]

theorem isName_of_fileName? {p : Path} {s : String} (h : p.fileName? = some s) : IsName s := by
  obtain ⟨cs, hcs⟩ := fileName?_eq_some_iff.1 h
  obtain ⟨a, b, hab, ha, hb⟩ := spelled_components p
  have hmem : Component.name s ∈ a ++ b := by
    rw [← hab, hcs]
    simp
  rcases List.mem_append.1 hmem with hm | hm
  · rcases ha with rfl | rfl | rfl <;> simp at hm
  · rcases hb _ hm with h | ⟨t, ht, hn⟩
    · cases h
    · cases ht
      exact hn

end Path

end ModuleMove
