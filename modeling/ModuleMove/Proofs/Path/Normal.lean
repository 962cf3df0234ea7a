import ModuleMove.Path.Normal
import ModuleMove.Proofs.Path.Components
import ModuleMove.Proofs.Path.Order
import Mathlib.Data.List.Induction

/-!
# NORMAL PATHS — what is left of a path without its detours

The components without detours are names, behind the root or behind steps up.  Behind components
that have no detours, names are added and a step up takes the last name away.

Main statements:
  * `Path.normal_normalComponents` — what is left has no detours.
  * `Path.normalComponents_of_normal` — what has no detours is left as it is.
  * `Path.components_normalize` — normalizing a path is normalizing its components.
-/

namespace ModuleMove.Path

/-! ## §1. Components without detours. -/

/-- Names behind the root or behind steps up. -/
def Normal (cs : List Component) : Prop :=
  ∃ (a : List Component) (ns : List String), cs = a ++ ns.map Component.name ∧
    (∀ s ∈ ns, IsName s) ∧ (a = [.root] ∨ ∃ k, a = List.replicate k .up)

/-- Components put behind others, without detours. -/
def settle (cs ds : List Component) : List Component :=
  (ds.foldl pushComponent cs.reverse).reverse

theorem normalComponents_eq_settle (cs : List Component) : normalComponents cs = settle [] cs := rfl

theorem settle_nil (cs : List Component) : settle cs [] = cs := List.reverse_reverse cs

theorem settle_append (cs ds es : List Component) :
    settle cs (ds ++ es) = settle (settle cs ds) es := by
  unfold settle
  rw [List.foldl_append, List.reverse_reverse]

theorem settle_cons (cs ds : List Component) (d : Component) :
    settle cs (d :: ds) = settle (settle cs [d]) ds :=
  settle_append cs [d] ds

theorem normalComponents_append (cs ds : List Component) :
    normalComponents (cs ++ ds) = settle (normalComponents cs) ds :=
  settle_append [] cs ds

theorem settle_name (cs : List Component) (s : String) :
    settle cs [.name s] = cs ++ [.name s] := by
  show (Component.name s :: cs.reverse).reverse = _
  rw [List.reverse_cons, List.reverse_reverse]

theorem settle_names (cs : List Component) (ns : List String) :
    settle cs (ns.map Component.name) = cs ++ ns.map Component.name := by
  induction ns generalizing cs with
  | nil => rw [List.map_nil, settle_nil, List.append_nil]
  | cons s ns ih => rw [List.map_cons, settle_cons, settle_name, ih, List.append_assoc]; rfl

theorem settle_up_name (cs : List Component) (s : String) :
    settle (cs ++ [.name s]) [.up] = cs := by
  show (pushComponent (cs ++ [Component.name s]).reverse .up).reverse = cs
  rw [List.reverse_append]
  exact List.reverse_reverse cs

/-- Steps up take the last names away. -/
theorem settle_ups (cs : List Component) (ns ms : List String) :
    settle (cs ++ (ns ++ ms).map Component.name) (List.replicate ms.length .up)
      = cs ++ ns.map Component.name := by
  induction ms using List.reverseRecOn generalizing cs with
  | nil => rw [List.append_nil]; exact settle_nil _
  | append_singleton ms m ih =>
    rw [List.length_append, List.length_singleton, List.replicate_succ, settle_cons,
      ← List.append_assoc, List.map_append, List.map_singleton, ← List.append_assoc,
      settle_up_name, ih]

/-- A step up from steps up is one more of them. -/
theorem settle_up_ups (k : Nat) :
    settle (List.replicate k .up) [.up] = List.replicate (k + 1) .up := by
  have hpush : pushComponent (List.replicate k Component.up) .up
      = .up :: List.replicate k .up := by
    cases k <;> rfl
  show (pushComponent (List.replicate k Component.up).reverse .up).reverse = _
  rw [List.reverse_replicate, hpush, ← List.replicate_succ, List.reverse_replicate]

/-! ## §2. What is left. -/

/-- A component behind the beginning of a path, or a `.` that does not count. -/
theorem normal_settle_one {cs : List Component} (h : Normal cs) {d : Component}
    (hd : Plain d ∨ d = .current) : Normal (settle cs [d]) := by
  obtain ⟨a, ns, rfl, hns, ha⟩ := h
  -- a step up takes a name away or is kept, a name is added, and a dot changes nothing
  rcases hd with (rfl | ⟨s, rfl, hs⟩) | rfl
  · rcases List.eq_nil_or_concat' ns with rfl | ⟨ns, s, rfl⟩
    · rw [List.map_nil, List.append_nil]
      rcases ha with rfl | ⟨k, rfl⟩
      · exact ⟨[.root], [], rfl, by simp, .inl rfl⟩
      · refine ⟨List.replicate (k + 1) .up, [], ?_, by simp, .inr ⟨k + 1, rfl⟩⟩
        rw [settle_up_ups, List.map_nil, List.append_nil]
    · rw [List.map_append, List.map_singleton, ← List.append_assoc, settle_up_name]
      exact ⟨a, ns, rfl, fun t ht => hns t (by simp [ht]), ha⟩
  · rw [settle_name, List.append_assoc]
    refine ⟨a, ns ++ [s], by simp, ?_, ha⟩
    intro t ht
    rcases List.mem_append.1 ht with ht | ht
    · exact hns t ht
    · rw [List.mem_singleton.1 ht]
      exact hs
  · have hcur : settle (a ++ ns.map Component.name) [.current] = a ++ ns.map Component.name :=
      List.reverse_reverse _
    rw [hcur]
    exact ⟨a, ns, rfl, hns, ha⟩

theorem normal_settle {cs ds : List Component} (h : Normal cs)
    (hd : ∀ d ∈ ds, Plain d ∨ d = .current) : Normal (settle cs ds) := by
  induction ds generalizing cs with
  | nil => rwa [settle_nil]
  | cons d ds ih =>
    rw [settle_cons]
    exact ih (normal_settle_one h (hd d (List.mem_cons_self ..)))
      fun e he => hd e (List.mem_cons_of_mem _ he)

theorem normal_nil : Normal [] := ⟨[], [], rfl, by simp, .inr ⟨0, rfl⟩⟩

theorem normal_root : Normal [.root] := ⟨[.root], [], rfl, by simp, .inl rfl⟩

/-- **What is left of well-spelled components has no detours.** -/
theorem normal_normalComponents {cs : List Component} (h : Spelled cs) :
    Normal (normalComponents cs) := by
  obtain ⟨a, b, rfl, ha, hb⟩ := h
  rw [normalComponents_append]
  refine normal_settle ?_ fun d hd => .inl (hb d hd)
  rcases ha with rfl | rfl | rfl
  · exact normal_nil
  · exact normal_root
  · exact normal_nil

/-- **What has no detours is left as it is.** -/
theorem normalComponents_of_normal {cs : List Component} (h : Normal cs) :
    normalComponents cs = cs := by
  obtain ⟨a, ns, rfl, -, ha⟩ := h
  rw [normalComponents_append, settle_names]
  congr 1
  rcases ha with rfl | ⟨k, rfl⟩
  · rfl
  · induction k with
    | zero => rfl
    | succ k ih =>
      rw [List.replicate_succ', normalComponents_append, ih, settle_up_ups, List.replicate_succ']

theorem Normal.spelled {cs : List Component} (h : Normal cs) : Spelled cs := by
  obtain ⟨a, ns, rfl, hns, ha⟩ := h
  have hnames : ∀ c ∈ ns.map Component.name, Plain c := by
    intro c hc
    obtain ⟨s, hs, rfl⟩ := List.mem_map.1 hc
    exact plain_name (hns s hs)
  rcases ha with rfl | ⟨k, rfl⟩
  · exact ⟨[.root], _, rfl, .inr (.inl rfl), hnames⟩
  · refine ⟨[], _, rfl, .inl rfl, ?_⟩
    intro c hc
    rcases List.mem_append.1 hc with hc | hc
    · exact .inl (List.eq_of_mem_replicate hc)
    · exact hnames c hc

/-- **Normalizing a path is normalizing its components.** -/
theorem components_normalize (p : Path) :
    p.normalize.components = normalComponents p.components :=
  components_ofComponents (normal_normalComponents (spelled_components p)).spelled

/-! ## §3. Going on by names. -/

/-- A path goes on from another by names. -/
def GoesOn (base p : Path) (ns : List String) : Prop :=
  (∀ s ∈ ns, IsName s) ∧ p.components = base.components ++ ns.map Component.name

theorem GoesOn.cons {base p : Path} {k : String} {ns : List String} (hk : IsName k)
    (h : (base.join ⟨k⟩).GoesOn p ns) : base.GoesOn p (k :: ns) := by
  refine ⟨List.forall_mem_cons.2 ⟨hk, h.1⟩, ?_⟩
  rw [h.2, components_join_name base hk, List.append_assoc]
  rfl

theorem map_name_inj {ns ms : List String}
    (h : ns.map Component.name = ms.map Component.name) : ns = ms :=
  List.map_injective_iff.2 (fun _ _ hab => Component.name.inj hab) h

theorem textsOf_map_name (ns : List String) : textsOf (ns.map Component.name) = ns := by
  unfold textsOf
  rw [List.map_map]
  exact List.map_id'' (fun _ => rfl) _

theorem prefix_of_map_name {ns ms : List String}
    (h : ns.map Component.name <+: ms.map Component.name) : ns <+: ms := by
  have htake := List.prefix_iff_eq_take.1 h
  rw [← List.map_take, List.length_map] at htake
  rw [map_name_inj htake]
  exact List.take_prefix _ _

/-- The names behind a path are known from what they lead to. -/
theorem GoesOn.inj {base p q : Path} {ns ms : List String} (h : base.GoesOn p ns)
    (h' : base.GoesOn q ms) (hs : p.same q = true) : ns = ms := by
  have hc := same_iff.1 hs
  rw [h.2, h'.2] at hc
  exact map_name_inj (List.append_cancel_left hc)

theorem GoesOn.trans {base p q : Path} {ns ms : List String} (h : base.GoesOn p ns)
    (h' : p.GoesOn q ms) : base.GoesOn q (ns ++ ms) := by
  refine ⟨fun s hs => ?_, ?_⟩
  · exact (List.mem_append.1 hs).elim (h.1 s) (h'.1 s)
  · rw [h'.2, h.2, List.map_append, List.append_assoc]

/-- The root of the tree. -/
def top : Path := ⟨"/"⟩

theorem components_top : top.components = [.root] := rfl

theorem GoesOn.normal {p : Path} {ns : List String} (h : top.GoesOn p ns) :
    Normal p.components := ⟨[.root], ns, h.2, h.1, .inl rfl⟩

theorem GoesOn.text_ne_empty {p : Path} {ns : List String} (h : top.GoesOn p ns) : p.text ≠ "" := by
  intro h0
  have := h.2
  rw [components_eq_nil_iff.2 h0] at this
  cases this

/-! ## §4. Absolute paths. -/

/-- Behind the root of the tree, steps up are taken back at the latest there. -/
theorem settle_absolute {cs : List Component} {ns : List String} (h : ∀ c ∈ cs, Plain c)
    (hns : ∀ s ∈ ns, IsName s) : ∃ ms : List String,
      settle ([.root] ++ ns.map Component.name) cs = [.root] ++ ms.map Component.name ∧
        ∀ s ∈ ms, IsName s := by
  induction cs generalizing ns with
  | nil => exact ⟨ns, settle_nil _, hns⟩
  | cons c cs ih =>
    have hrest : ∀ d ∈ cs, Plain d := fun d hd => h d (List.mem_cons_of_mem _ hd)
    rw [settle_cons]
    rcases h c (List.mem_cons_self ..) with rfl | ⟨s, rfl, hs⟩
    · rcases List.eq_nil_or_concat' ns with rfl | ⟨ns, s, rfl⟩
      · exact ih hrest (List.forall_mem_nil _)
      · rw [List.map_append, List.map_singleton, ← List.append_assoc, settle_up_name]
        exact ih hrest fun t ht => hns t (by simp [ht])
    · have hnames : [Component.root] ++ ns.map Component.name ++ [.name s]
          = [.root] ++ (ns ++ [s]).map Component.name := by simp
      rw [settle_name, hnames]
      refine ih hrest fun t ht => ?_
      rcases List.mem_append.1 ht with ht | ht
      · exact hns t ht
      · rw [List.mem_singleton.1 ht]
        exact hs

/-- **Without its detours, an absolute path goes on from the root by names.** -/
theorem goesOn_normalize {p : Path} (h : p.isAbsolute = true) :
    ∃ ns, top.GoesOn p.normalize ns := by
  obtain ⟨cs, hcs⟩ := isAbsolute_iff_components.1 h
  have hplain : ∀ c ∈ cs, Plain c := by
    obtain ⟨a, b, hab, ha, hb⟩ := spelled_components p
    rw [hcs] at hab
    rcases ha with rfl | rfl | rfl
    · intro c hc
      exact hb c (by rw [← show Component.root :: cs = b from hab]; exact List.mem_cons_of_mem _ hc)
    · obtain rfl := (List.cons.inj hab).2
      exact hb
    · cases hab
  obtain ⟨ms, hms, hnames⟩ := settle_absolute hplain (List.forall_mem_nil IsName)
  refine ⟨ms, hnames, ?_⟩
  rw [components_normalize, hcs]
  exact hms

end ModuleMove.Path
