import ModuleMove.Project.Basic
import ModuleMove.Proofs.Path.Normal

/-!
# CONGRUENCE — normalizing before and after joining

The components of a path are normalized one after the other, so what comes of them does not
depend on where they are cut: a first part can be normalized on its own before the rest is put
behind it.  Joining puts components behind components, and so paths can be normalized before
they are joined.

Main statements:
  * `Path.normalComponents_normalComponents_append` — a first part can be normalized on its own.
  * `Path.normalComponents_join` — joining adds what the second path's pieces stand for.
  * `Path.normalize_join_left` — a directory can be normalized before it is joined.
  * `Path.normalize_join_normalize` — normalizing is idempotent and a congruence for joining, and
    what it leaves are names behind the root or behind steps up.
  * `Specifier.resolve_normalize`, `Project.absolute_ofRoot` — what is read from a directory does
    not depend on how the directory is spelled.
-/

namespace ModuleMove

namespace Path

/-! ## §1. Cutting components anywhere. -/

/-- **A first part of the components can be normalized on its own.** -/
theorem normalComponents_normalComponents_append {cs : List Component} (h : Spelled cs)
    (ds : List Component) :
    normalComponents (normalComponents cs ++ ds) = normalComponents (cs ++ ds) := by
  rw [normalComponents_append, normalComponents_append,
    normalComponents_of_normal (normal_normalComponents h)]

theorem normalComponents_current (cs : List Component) :
    normalComponents (.current :: cs) = normalComponents cs := rfl

/-- Nothing is taken onto components that was not in the list. -/
theorem mem_of_mem_pushComponent {stack : List Component} {c d : Component}
    (h : d ∈ pushComponent stack c) : d = c ∨ d ∈ stack := by
  unfold pushComponent at h
  split at h
  · exact .inr h
  · split at h
    · exact .inr (List.mem_cons_of_mem _ h)
    · exact .inr h
    · exact List.mem_cons.1 h
  · exact List.mem_cons.1 h

theorem mem_of_mem_settle {cs ds : List Component} {d : Component} (h : d ∈ settle cs ds) :
    d ∈ cs ∨ d ∈ ds := by
  induction ds generalizing cs with
  | nil =>
    rw [settle_nil] at h
    exact .inl h
  | cons c ds ih =>
    rw [settle_cons] at h
    rcases ih h with h | h
    · have hpush : d ∈ pushComponent cs.reverse c := List.mem_reverse.1 h
      rcases mem_of_mem_pushComponent hpush with rfl | h
      · exact .inr (List.mem_cons_self ..)
      · exact .inl (List.mem_reverse.1 h)
    · exact .inr (List.mem_cons_of_mem _ h)

/-- Normalizing only leaves components out. -/
theorem mem_of_mem_normalComponents {cs : List Component} {d : Component}
    (h : d ∈ normalComponents cs) : d ∈ cs := by
  have hsettle : d ∈ [] ∨ d ∈ cs := mem_of_mem_settle h
  exact hsettle.resolve_left List.not_mem_nil

/-! ## §2. Joining. -/

/-- What a relative path adds to an empty one is known from its pieces, up to a `.`. -/
theorem normalComponents_of_relative {q : Path} (h : q.isAbsolute = false) :
    normalComponents q.components = normalComponents (inner q.text) := by
  by_cases hq : q.text = ""
  · rw [components_eq_nil_iff.2 hq, hq]
    rfl
  · obtain ⟨s, ps, hc, -, he⟩ := components_eq_opening hq
    have hinner : inner q.text = (componentOf? s).toList ++ ps.filterMap componentOf? := by
      rw [inner, hc, List.filterMap_cons]
      cases componentOf? s <;> rfl
    rw [he, hinner]
    -- only an empty first piece and a dot stand for something else at the beginning
    unfold opening
    split
    · exfalso
      have hroot : q.isAbsolute = true := isAbsolute_iff_components.2 ⟨_, he⟩
      rw [h] at hroot
      cases hroot
    · exact normalComponents_current _
    · rfl

/-- **Behind any path, a relative path adds what its pieces stand for**, once detours are left
    out. -/
theorem normalComponents_join (p : Path) {q : Path} (h : q.isAbsolute = false) :
    normalComponents (p.join q).components = normalComponents (p.components ++ inner q.text) := by
  by_cases hp : p.text = ""
  · have hjoin : p.join q = q := by
      unfold join
      rw [if_neg (by rw [h]; decide), if_pos (by rw [hp]; rfl), hp, String.empty_append]
    rw [hjoin, components_eq_nil_iff.2 hp, normalComponents_of_relative h, List.nil_append]
  · rw [components_join hp h]

/-- Paths whose components are the same without their detours are normalized to the same path. -/
theorem normalize_eq_of_normalComponents {p q : Path}
    (h : normalComponents p.components = normalComponents q.components) :
    p.normalize = q.normalize := by
  unfold normalize
  rw [h]

/-! ## §3. What normalizing leaves. -/

theorem root_mem_components {p : Path} (h : .root ∈ p.components) : p.isAbsolute = true := by
  obtain ⟨a, b, hab, ha, hb⟩ := spelled_components p
  have hroot : Component.root ∉ b := by
    intro hmem
    rcases hb _ hmem with h | ⟨s, h, -⟩ <;> cases h
  rw [hab] at h
  have hopen : Component.root ∈ a := (List.mem_append.1 h).resolve_right hroot
  rcases ha with rfl | rfl | rfl
  · cases hopen
  · exact isAbsolute_iff_components.2 ⟨b, hab⟩
  · cases List.mem_singleton.1 hopen

/-- Without its detours, a relative path is names behind steps up. -/
theorem components_normalize_of_relative {p : Path} (h : p.isAbsolute = false) :
    ∃ (k : Nat) (ns : List String), (∀ s ∈ ns, IsName s) ∧
      p.normalize.components = List.replicate k .up ++ ns.map Component.name := by
  obtain ⟨a, ns, he, hns, ha⟩ := normal_normalComponents (spelled_components p)
  rw [components_normalize, he]
  rcases ha with rfl | ⟨k, rfl⟩
  · exfalso
    have hroot : Component.root ∈ normalComponents p.components := by
      rw [he]
      exact List.mem_cons_self ..
    rw [root_mem_components (mem_of_mem_normalComponents hroot)] at h
    cases h
  · exact ⟨k, ns, hns, rfl⟩

theorem current_not_mem_of_normal {cs : List Component} (h : Normal cs) : .current ∉ cs := by
  obtain ⟨a, ns, rfl, -, ha⟩ := h
  intro hmem
  rcases List.mem_append.1 hmem with hmem | hmem
  · rcases ha with rfl | ⟨k, rfl⟩
    · cases List.mem_singleton.1 hmem
    · cases List.eq_of_mem_replicate hmem
  · obtain ⟨s, -, hs⟩ := List.mem_map.1 hmem
    cases hs

theorem normalize_normalize (p : Path) : p.normalize.normalize = p.normalize := by
  have hnormal := normal_normalComponents (spelled_components p)
  apply normalize_eq_of_normalComponents
  rw [components_normalize, normalComponents_of_normal hnormal]

/-- **A directory can be normalized before something is looked up in it.** -/
theorem normalize_join_left (p q : Path) :
    (p.normalize.join q).normalize = (p.join q).normalize := by
  by_cases hq : q.isAbsolute = true
  · rw [join_of_isAbsolute hq, join_of_isAbsolute hq]
  · have hrel := Bool.eq_false_iff.2 hq
    apply normalize_eq_of_normalComponents
    rw [normalComponents_join p.normalize hrel, normalComponents_join p hrel,
      components_normalize, normalComponents_normalComponents_append (spelled_components p)]

/-- **Normalizing is idempotent, it is a congruence for joining, and it leaves no detours**: no
    `.`, behind the root only names, and in a relative path only names behind steps up. -/
theorem normalize_join_normalize (a b : Path) :
    a.normalize.normalize = a.normalize ∧
      (a.join b).normalize = (a.normalize.join b).normalize ∧
      .current ∉ a.normalize.components ∧
      (a.isAbsolute = true → ∃ ns : List String, (∀ s ∈ ns, IsName s) ∧
        a.normalize.components = .root :: ns.map Component.name) ∧
      (a.isAbsolute = false → ∃ (k : Nat) (ns : List String), (∀ s ∈ ns, IsName s) ∧
        a.normalize.components = List.replicate k .up ++ ns.map Component.name) := by
  refine ⟨normalize_normalize a, (normalize_join_left a b).symm, ?_, ?_, ?_⟩
  · rw [components_normalize]
    exact current_not_mem_of_normal (normal_normalComponents (spelled_components a))
  · intro habs
    exact goesOn_normalize habs
  · intro hrel
    exact components_normalize_of_relative hrel

end Path

/-! ## §4. Where it is relied on. -/

/-- A specifier names the same place from any spelling of its directory. -/
theorem Specifier.resolve_normalize (specifier : String) (dir root : Path) :
    resolve specifier dir.normalize root.normalize = resolve specifier dir root := by
  unfold resolve
  cases afterStart? "/" specifier with
  | some rest => exact Path.normalize_join_left root ⟨rest⟩
  | none => exact Path.normalize_join_left dir ⟨specifier⟩

/-- A path is read from the root of a project as from the directory that the root was given by. -/
theorem Project.absolute_ofRoot (root path : Path) (config : Config) :
    (ofRoot root config).absolute path = (root.join path).normalize := by
  show (if path.isAbsolute then path.normalize else (root.normalize.join path).normalize) = _
  split
  · rename_i habs
    rw [Path.join_of_isAbsolute habs]
  · exact Path.normalize_join_left root path

/-- The absolute form of a path is its own absolute form without detours. -/
theorem Project.normalize_absolute (p : Project) (path : Path) :
    (p.absolute path).normalize = p.absolute path := by
  unfold absolute
  split <;> exact Path.normalize_normalize _

end ModuleMove
