import ModuleMove.Path.Basic
import ModuleMove.Proofs.Text.Pieces

/-!
# COMPONENTS OF PATHS — how texts of paths and lists of components correspond

A list of components is well spelled if the root and `.` stand only at its beginning and its names
are names.  The components of any path are well spelled, and every well-spelled list comes back
from the path that is written for it.

Main statements:
  * `Path.components_ofComponents` — well-spelled components come back.
  * `Path.components_join` — behind a directory, a relative path adds its pieces.
-/

namespace ModuleMove

namespace Path

/-! ## §1. Names. -/

/-- A text is the name of a file or directory. -/
def IsName (s : String) : Prop := s ≠ "" ∧ s ≠ "." ∧ s ≠ ".." ∧ '/' ∉ s.toList

instance (s : String) : Decidable (IsName s) := inferInstanceAs (Decidable (_ ∧ _ ∧ _ ∧ _))

theorem componentOf?_name {s : String} (h : IsName s) : componentOf? s = some (.name s) := by
  unfold componentOf?
  split
  · exact absurd rfl h.1
  · exact absurd rfl h.2.1
  · exact absurd rfl h.2.2.1
  · rfl

theorem componentOf?_eq_some {s : String} {c : Component} (h : componentOf? s = some c) :
    c.text = s ∧ s ≠ "" ∧ s ≠ "." ∧ (c = .up ∨ c = .name s ∧ s ≠ "..") := by
  unfold componentOf? at h
  split at h
  · cases h
  · cases h
  · cases h
    exact ⟨rfl, by decide, by decide, .inl rfl⟩
  · rename_i h0 h1 h2
    cases h
    exact ⟨rfl, h0, h1, .inr ⟨rfl, h2⟩⟩

/-! ## §2. Pieces behind the beginning. -/

/-- A component that can stand anywhere in a path. -/
def Plain (c : Component) : Prop := c = .up ∨ ∃ s, c = .name s ∧ IsName s

theorem plain_name {s : String} (h : IsName s) : Plain (.name s) := .inr ⟨s, rfl, h⟩

/-- The components that the pieces of a text stand for behind the beginning of a path. -/
def inner (s : String) : List Component := (cutText '/' s).filterMap componentOf?

theorem plain_of_mem_filterMap {ps : List String} (h : ∀ p ∈ ps, '/' ∉ p.toList) :
    ∀ c ∈ ps.filterMap componentOf?, Plain c := by
  intro c hc
  obtain ⟨p, hp, he⟩ := List.mem_filterMap.1 hc
  obtain ⟨-, h0, h1, rfl | ⟨rfl, h2⟩⟩ := componentOf?_eq_some he
  · exact .inl rfl
  · exact plain_name ⟨h0, h1, h2, h p hp⟩

theorem Plain.componentOf?_text {c : Component} (h : Plain c) : componentOf? c.text = some c := by
  rcases h with rfl | ⟨s, rfl, hs⟩
  · rfl
  · exact componentOf?_name hs

theorem Plain.slash_not_mem {c : Component} (h : Plain c) : '/' ∉ c.text.toList := by
  rcases h with rfl | ⟨s, rfl, hs⟩
  · decide
  · exact hs.2.2.2

theorem filterMap_componentOf?_texts {cs : List Component} (h : ∀ c ∈ cs, Plain c) :
    (cs.map Component.text).filterMap componentOf? = cs := by
  induction cs with
  | nil => rfl
  | cons c cs ih =>
    rw [List.map_cons, List.filterMap_cons_some (h c (List.mem_cons_self ..)).componentOf?_text,
      ih fun b hb => h b (List.mem_cons_of_mem _ hb)]

theorem cutText_texts {cs : List Component} (hne : cs ≠ []) (h : ∀ c ∈ cs, Plain c) :
    cutText '/' (joinText '/' (cs.map Component.text)) = cs.map Component.text := by
  apply cutText_joinText
  · rwa [Ne, List.map_eq_nil_iff]
  · intro s hs
    obtain ⟨c, hc, rfl⟩ := List.mem_map.1 hs
    exact (h c hc).slash_not_mem

/-- Plain components come back from their text. -/
theorem inner_texts {cs : List Component} (h : ∀ c ∈ cs, Plain c) :
    inner (joinText '/' (cs.map Component.text)) = cs := by
  by_cases hne : cs = []
  · subst hne
    rfl
  · rw [inner, cutText_texts hne h, filterMap_componentOf?_texts h]

theorem inner_name {s : String} (h : IsName s) : inner s = [.name s] := by
  rw [inner, cutText_of_not_mem h.2.2.2, List.filterMap_cons_some (componentOf?_name h)]
  rfl

/-! ## §3. The beginning. -/

/-- What the first piece of a path stands for, if it is not all of the path or not empty. -/
def opening : String → List Component
  | "" => [.root]
  | "." => [.current]
  | s => (componentOf? s).toList

/-- Components as they are found in a path. -/
def Spelled (cs : List Component) : Prop :=
  ∃ a b, cs = a ++ b ∧ (a = [] ∨ a = [.root] ∨ a = [.current]) ∧ ∀ c ∈ b, Plain c

theorem componentsOf_cons {s : String} {ps : List String} (h : s ≠ "" ∨ ps ≠ []) :
    componentsOf (s :: ps) = opening s ++ ps.filterMap componentOf? := by
  unfold componentsOf opening
  split
  · rename_i heq
    cases heq
  · rename_i heq
    obtain ⟨rfl, rfl⟩ := List.cons.inj heq
    rcases h with h | h
    · exact absurd rfl h
    · rw [if_neg (by rwa [List.isEmpty_iff])]
      rfl
  · rename_i heq
    obtain ⟨rfl, rfl⟩ := List.cons.inj heq
    rfl
  · rename_i h0 h1
    split
    · rename_i he
      exact absurd rfl (h0 ps)
    · rename_i he
      exact absurd rfl (h1 ps)
    · rw [List.filterMap_cons]
      cases componentOf? s <;> rfl

theorem components_eq_nil_iff {p : Path} : p.components = [] ↔ p.text = "" := by
  constructor
  · intro h
    unfold components at h
    cases hc : cutText '/' p.text with
    | nil => exact absurd hc (cutText_ne_nil _ _)
    | cons s ps =>
      rw [hc] at h
      by_cases hs : s = "" ∧ ps = []
      · rw [← joinText_cutText '/' p.text, hc, hs.1, hs.2]
        rfl
      · rw [componentsOf_cons (by tauto), List.append_eq_nil_iff] at h
        -- a first piece stands for something unless it is empty and alone
        unfold opening at h
        split at h
        · simp at h
        · simp at h
        · rename_i h0 h1
          have hn : componentOf? s = none := by
            cases ho : componentOf? s with
            | none => rfl
            | some c => rw [ho] at h; simp at h
          unfold componentOf? at hn
          split at hn
          · exact absurd rfl h0
          · exact absurd rfl h1
          · cases hn
          · cases hn
  · intro h
    unfold components
    rw [h]
    rfl

/-- The pieces of a path that is not empty begin with one that stands for something. -/
theorem components_eq_opening {p : Path} (h : p.text ≠ "") : ∃ s ps,
    cutText '/' p.text = s :: ps ∧ (s ≠ "" ∨ ps ≠ []) ∧
      p.components = opening s ++ ps.filterMap componentOf? := by
  unfold components
  cases hc : cutText '/' p.text with
  | nil => exact absurd hc (cutText_ne_nil _ _)
  | cons s ps =>
    have hor : s ≠ "" ∨ ps ≠ [] := by
      by_contra hn
      rw [not_or, not_ne_iff, not_ne_iff] at hn
      apply h
      rw [← joinText_cutText '/' p.text, hc, hn.1, hn.2]
      rfl
    exact ⟨s, ps, rfl, hor, componentsOf_cons hor⟩

theorem spelled_components (p : Path) : Spelled p.components := by
  by_cases h : p.text = ""
  · rw [components_eq_nil_iff.2 h]
    exact ⟨[], [], rfl, .inl rfl, by simp⟩
  · obtain ⟨s, ps, hc, -, he⟩ := components_eq_opening h
    have hslash : ∀ q ∈ cutText '/' p.text, '/' ∉ q.toList := fun q => not_mem_of_mem_cutText
    rw [hc] at hslash
    have hps : ∀ c ∈ ps.filterMap componentOf?, Plain c :=
      plain_of_mem_filterMap fun q hq => hslash q (List.mem_cons_of_mem _ hq)
    rw [he]
    -- the first piece alone can stand for the root or the current directory
    unfold opening
    split
    · exact ⟨[.root], _, rfl, .inr (.inl rfl), hps⟩
    · exact ⟨[.current], _, rfl, .inr (.inr rfl), hps⟩
    · rename_i h0 h1
      refine ⟨[], _, rfl, .inl rfl, ?_⟩
      intro c hc
      rcases List.mem_append.1 hc with hc | hc
      · have hone : ∀ q ∈ [s], '/' ∉ q.toList := by
          intro q hq
          rw [List.mem_singleton] at hq
          rw [hq]
          exact hslash s (List.mem_cons_self ..)
        refine plain_of_mem_filterMap hone c ?_
        · rw [List.filterMap_cons]
          cases ho : componentOf? s with
          | none => rw [ho] at hc; simp at hc
          | some b => rw [ho] at hc; simpa using hc
      · exact hps c hc

/-- **Well-spelled components come back from the path that is written for them.** -/
theorem components_ofComponents {cs : List Component} (h : Spelled cs) :
    (ofComponents cs).components = cs := by
  obtain ⟨a, b, rfl, rfl | rfl | rfl, hb⟩ := h
  · rw [List.nil_append]
    cases b with
    | nil => rfl
    | cons c b =>
      have hc := hb c (List.mem_cons_self ..)
      have hoc : ofComponents (c :: b) = ⟨joinText '/' ((c :: b).map Component.text)⟩ := by
        rcases hc with rfl | ⟨s, rfl, -⟩ <;> rfl
      rw [hoc, components, cutText_texts (by simp) hb, List.map_cons, componentsOf_cons,
        filterMap_componentOf?_texts fun d hd => hb d (List.mem_cons_of_mem _ hd)]
      · rcases hc with rfl | ⟨s, rfl, hs⟩
        · rfl
        · show opening s ++ b = _
          unfold opening
          split
          · exact absurd rfl hs.1
          · exact absurd rfl hs.2.1
          · rw [componentOf?_name hs]
            rfl
      · left
        rcases hc with rfl | ⟨s, rfl, hs⟩
        · decide
        · exact hs.1
  · -- the slash at the beginning is a piece of its own
    have hcut : cutText '/' ("/" ++ joinText '/' (b.map Component.text))
        = "" :: cutText '/' (joinText '/' (b.map Component.text)) :=
      cutText_slash "" _
    rw [List.singleton_append, ofComponents, components]
    show componentsOf (cutText '/' ("/" ++ _)) = _
    rw [hcut, componentsOf_cons (.inr (cutText_ne_nil _ _))]
    show [.root] ++ inner _ = _
    rw [inner_texts hb]
    rfl
  · have hoc : ofComponents ([.current] ++ b)
        = ⟨joinText '/' ("." :: b.map Component.text)⟩ := rfl
    have hcut : cutText '/' (joinText '/' ("." :: b.map Component.text))
        = "." :: b.map Component.text := by
      apply cutText_joinText (by simp)
      intro s hs
      rcases List.mem_cons.1 hs with rfl | hs
      · decide
      · obtain ⟨c, hc, rfl⟩ := List.mem_map.1 hs
        exact (hb c hc).slash_not_mem
    rw [hoc, components, hcut, componentsOf_cons (.inl (by decide)),
      filterMap_componentOf?_texts hb]
    rfl

/-! ## §4. Absolute paths. -/

theorem isAbsolute_iff {p : Path} : p.isAbsolute = true ↔ ∃ t, p.text = "/" ++ t := by
  unfold isAbsolute
  rw [beq_iff_eq]
  constructor
  · intro h
    obtain ⟨r, hr⟩ := List.head?_eq_some_iff.1 h
    refine ⟨String.ofList r, ?_⟩
    apply String.toList_inj.1
    simp [hr]
  · rintro ⟨t, ht⟩
    rw [ht]
    simp

theorem components_of_slash (t : String) : components ⟨"/" ++ t⟩ = .root :: inner t := by
  have hcut : cutText '/' ("/" ++ t) = "" :: cutText '/' t := cutText_slash "" t
  unfold components
  rw [hcut, componentsOf_cons (.inr (cutText_ne_nil _ _))]
  rfl

theorem isAbsolute_iff_components {p : Path} :
    p.isAbsolute = true ↔ ∃ cs, p.components = .root :: cs := by
  rw [isAbsolute_iff]
  constructor
  · rintro ⟨t, ht⟩
    obtain ⟨text⟩ := p
    cases ht
    exact ⟨inner t, components_of_slash t⟩
  · rintro ⟨cs, hcs⟩
    have hne : p.text ≠ "" := by
      intro h
      rw [components_eq_nil_iff.2 h] at hcs
      cases hcs
    obtain ⟨s, ps, hc, hor, he⟩ := components_eq_opening hne
    rw [he] at hcs
    by_cases hs : s = ""
    · subst hs
      have hps : ps ≠ [] := hor.resolve_left fun h => h rfl
      refine ⟨joinText '/' ps, ?_⟩
      rw [← joinText_cutText '/' p.text, hc, joinText_cons "" hps]
      rfl
    · -- no other piece stands for the root
      exfalso
      have hplain : ∀ c ∈ opening s ++ ps.filterMap componentOf?, c ≠ .root := by
        intro c hc
        have hnone : ∀ q, componentOf? q ≠ some .root := by
          intro q hq
          obtain ⟨-, -, -, h | ⟨h, -⟩⟩ := componentOf?_eq_some hq <;> cases h
        rcases List.mem_append.1 hc with hc | hc
        · unfold opening at hc
          split at hc
          · exact absurd rfl hs
          · rw [List.mem_singleton] at hc
            rw [hc]
            decide
          · intro h
            subst h
            exact hnone s (Option.mem_toList.1 hc)
        · intro h
          subst h
          obtain ⟨q, -, hq⟩ := List.mem_filterMap.1 hc
          exact hnone q hq
      rw [hcs] at hplain
      exact hplain .root (List.mem_cons_self ..) rfl

/-! ## §5. Joining. -/

theorem join_of_isAbsolute {p q : Path} (h : q.isAbsolute = true) : p.join q = q := by
  unfold join
  rw [if_pos h]

/-- Pieces behind those of a path that is not empty add what they stand for. -/
theorem componentsOf_append {s : String} {ps qs : List String} (h : s ≠ "" ∨ ps ≠ []) :
    componentsOf (s :: ps ++ qs) = componentsOf (s :: ps) ++ qs.filterMap componentOf? := by
  rw [List.cons_append, componentsOf_cons h, componentsOf_cons, List.filterMap_append,
    List.append_assoc]
  rcases h with h | h
  · exact .inl h
  · right
    simp [h]

theorem components_append_slash {p : Path} (h : p.text ≠ "") (t : String) :
    components ⟨p.text ++ "/" ++ t⟩ = p.components ++ inner t := by
  obtain ⟨s, ps, hc, hor, -⟩ := components_eq_opening h
  unfold components
  rw [cutText_slash, hc, componentsOf_append hor]
  rfl

/-- **Behind a directory, a relative path adds what its pieces stand for.** -/
theorem components_join {p q : Path} (hp : p.text ≠ "") (hq : q.isAbsolute = false) :
    (p.join q).components = p.components ++ inner q.text := by
  unfold join
  rw [if_neg (by rw [hq]; decide)]
  -- a slash is put between the two, unless the first one ends with one
  split
  · rename_i hend
    rw [Bool.or_eq_true, String.isEmpty_iff, beq_iff_eq] at hend
    have hlast := hend.resolve_left hp
    obtain ⟨r, hr⟩ := List.getLast?_eq_some_iff.1 hlast
    have htext : p.text = String.ofList r ++ "/" := by
      apply String.toList_inj.1
      simp [hr]
    have hcut : cutText '/' (String.ofList r ++ "/") = cutText '/' (String.ofList r) ++ [""] := by
      have := cutText_slash (String.ofList r) ""
      rwa [String.append_empty] at this
    unfold components
    rw [htext, cutText_slash, hcut]
    cases hc : cutText '/' (String.ofList r) with
    | nil => exact absurd hc (cutText_ne_nil _ _)
    | cons s ps =>
      -- the empty piece behind the slash stands for nothing
      show componentsOf (s :: (ps ++ _)) = componentsOf (s :: (ps ++ [""])) ++ _
      rw [componentsOf_cons (.inr (by simp [cutText_ne_nil])), componentsOf_cons (.inr (by simp)),
        List.filterMap_append, List.filterMap_append, List.append_assoc, List.append_assoc]
      rfl
  · exact components_append_slash hp _

/-- A text without slashes is no absolute path. -/
theorem isAbsolute_of_slash_not_mem {t : String} (ht : '/' ∉ t.toList) :
    isAbsolute ⟨t⟩ = false := by
  rw [Bool.eq_false_iff, Ne, isAbsolute_iff]
  rintro ⟨u, hu⟩
  have hu : t = "/" ++ u := hu
  rw [hu, String.toList_append] at ht
  exact ht (List.mem_append_left _ (List.mem_singleton_self _))

theorem isAbsolute_of_isName {s : String} (h : IsName s) : isAbsolute ⟨s⟩ = false :=
  isAbsolute_of_slash_not_mem h.2.2.2

/-- Names put together make a relative path. -/
theorem isAbsolute_joinText {ns : List String} (hns : ∀ s ∈ ns, IsName s) (hne : ns ≠ []) :
    isAbsolute ⟨joinText '/' ns⟩ = false := by
  rw [Bool.eq_false_iff, Ne, isAbsolute_iff]
  rintro ⟨t, ht⟩
  have ht : joinText '/' ns = "/" ++ t := ht
  have hcut : cutText '/' ("/" ++ t) = "" :: cutText '/' t := cutText_slash "" t
  have hcut' := cutText_joinText hne fun s hs => (hns s hs).2.2.2
  rw [ht, hcut] at hcut'
  exact (hns "" (by rw [← hcut']; exact List.mem_cons_self ..)).1 rfl

theorem components_name {s : String} (h : IsName s) : components ⟨s⟩ = [.name s] := by
  unfold components
  rw [cutText_of_not_mem h.2.2.2, componentsOf_cons (.inl h.1)]
  unfold opening
  split
  · exact absurd rfl h.1
  · exact absurd rfl h.2.1
  · rw [componentOf?_name h]
    rfl

/-- A name is put behind any path, also behind the empty one. -/
theorem components_join_name (p : Path) {s : String} (h : IsName s) :
    (p.join ⟨s⟩).components = p.components ++ [.name s] := by
  by_cases hp : p.text = ""
  · have hjoin : p.join ⟨s⟩ = ⟨s⟩ := by
      unfold join
      rw [if_neg (by rw [isAbsolute_of_isName h]; decide), if_pos (by rw [hp]; rfl), hp]
      rw [String.empty_append]
    rw [hjoin, components_name h, components_eq_nil_iff.2 hp]
    rfl
  · rw [components_join hp (isAbsolute_of_isName h), inner_name h]

end Path

end ModuleMove
