import ModuleMove.Proofs.Plan.Checked

/-!
# STRAIGHT PATHS — absolute paths that are written by names alone

A path may be spelled in many ways, and what a disk does with a spelling that ends in a slash or in
a dot differs from what it does with the bare names.  The paths that a plan renames have one
spelling only: a slash in front of each name and nothing else.

Main statements:
  * `straight_normalize` — an absolute path without detours is straight.
  * `Straight.join`, `Straight.exists_parent`, `Straight.withExtension` — putting names behind a
    straight path and taking them away.
-/

namespace ModuleMove.Path

/-- The path is absolute and written by the given names, with one slash in front of each. -/
def Straight (p : Path) (ns : List String) : Prop :=
  (∀ s ∈ ns, IsName s) ∧ p.text = "/" ++ joinText '/' ns

variable {p q : Path} {ns ms : List String} {s : String}

/-! ## §1. One spelling. -/

theorem Straight.ext (hp : p.Straight ns) (hq : q.Straight ns) : p = q := by
  obtain ⟨t⟩ := p
  obtain ⟨u⟩ := q
  exact congrArg Path.mk (hp.2.trans hq.2.symm)

theorem Straight.cutText (h : p.Straight ns) :
    cutText '/' p.text = "" :: if ns = [] then [""] else ns := by
  rw [h.2]
  exact Specifier.cutText_names h.1

/-- A straight path goes on from the root of the tree by its names. -/
theorem Straight.goesOn (h : p.Straight ns) : top.GoesOn p ns := by
  refine ⟨h.1, ?_⟩
  have hp : p = ofComponents (.root :: ns.map Component.name) := by
    obtain ⟨t⟩ := p
    have ht : t = "/" ++ joinText '/' ns := h.2
    rw [ht]
    show _ = (⟨"/" ++ joinText '/' (textsOf (ns.map Component.name))⟩ : Path)
    rw [textsOf_map_name]
  rw [hp, components_ofComponents]
  · rfl
  · exact Normal.spelled ⟨[.root], ns, rfl, h.1, .inl rfl⟩

theorem Straight.components (h : p.Straight ns) :
    p.components = .root :: ns.map Component.name := h.goesOn.2

theorem Straight.isAbsolute (h : p.Straight ns) : p.isAbsolute = true :=
  isAbsolute_iff.2 ⟨_, h.2⟩

/-- What names stand behind those of another straight path. -/
theorem Straight.eq_append (hp : p.Straight ns) (hq : q.Straight ms) (ks : List String)
    (h : p.components = q.components ++ ks.map Component.name) : ns = ms ++ ks := by
  rw [hp.components, hq.components, List.cons_append] at h
  refine map_name_inj ?_
  rw [(List.cons.inj h).2, List.map_append]

/-- Straight paths to one place are one path. -/
theorem Straight.same_iff (hp : p.Straight ns) (hq : q.Straight ms) :
    p.same q = true ↔ ns = ms := by
  rw [Path.same_iff, hp.components, hq.components]
  exact ⟨fun h => map_name_inj (List.cons.inj h).2, fun h => by rw [h]⟩

/-- One straight path lies under another one if its names begin with those of the other. -/
theorem Straight.isUnder_iff (hp : p.Straight ns) (hq : q.Straight ms) :
    p.isUnder q = true ↔ ms <+: ns := by
  unfold isUnder
  rw [List.isPrefixOf_iff_prefix, hp.components, hq.components, List.cons_prefix_cons]
  refine ⟨fun h => prefix_of_map_name h.2, ?_⟩
  rintro ⟨ks, rfl⟩
  exact ⟨rfl, ⟨ks.map Component.name, by rw [List.map_append]⟩⟩

/-- The names among the components of a path. -/
def names (p : Path) : List String :=
  p.components.filterMap fun
    | .name s => some s
    | _ => none

theorem Straight.names_eq (h : p.Straight ns) : p.names = ns := by
  unfold names
  rw [h.components]
  show (ns.map Component.name).filterMap _ = ns
  rw [List.filterMap_map]
  exact List.filterMap_some

/-! ## §2. Making straight paths. -/

/-- A path without detours is written by its names if it begins at the root of the tree. -/
theorem straight_of_goesOn (h : top.GoesOn p.normalize ns) : p.normalize.Straight ns := by
  refine ⟨h.1, ?_⟩
  -- what is written is what the components settle to, and these are names behind the root
  have hc := h.2
  rw [components_normalize, components_top] at hc
  unfold normalize
  rw [hc]
  show "/" ++ joinText '/' (textsOf (ns.map Component.name)) = _
  rw [textsOf_map_name]

/-- **Without its detours, an absolute path is straight.** -/
theorem straight_normalize (h : p.isAbsolute = true) : ∃ ns, p.normalize.Straight ns := by
  obtain ⟨ns, hns⟩ := goesOn_normalize h
  exact ⟨ns, straight_of_goesOn hns⟩

/-- The path is absolute and makes no detours: it is what it normalizes to. -/
def Settled (p : Path) : Prop := p.isAbsolute = true ∧ p.normalize = p

instance (p : Path) : Decidable p.Settled :=
  inferInstanceAs (Decidable (p.isAbsolute = true ∧ p.normalize = p))

theorem Settled.exists_straight (h : p.Settled) : ∃ ns, p.Straight ns := by
  obtain ⟨ns, hns⟩ := straight_normalize h.1
  rw [h.2] at hns
  exact ⟨ns, hns⟩

/-- The path is absolute and goes the same way as its form without detours, however its slashes are
    spelled. -/
def Direct (p : Path) : Prop := p.isAbsolute = true ∧ p.normalize.same p = true

instance (p : Path) : Decidable p.Direct :=
  inferInstanceAs (Decidable (p.isAbsolute = true ∧ p.normalize.same p = true))

theorem Direct.exists_goesOn (h : p.Direct) : ∃ ns, top.GoesOn p ns := by
  obtain ⟨ns, hns⟩ := goesOn_normalize h.1
  exact ⟨ns, hns.1, (same_iff.1 h.2).symm.trans hns.2⟩

/-- Of all spellings of a direct path, normalizing gives one. -/
theorem normalize_eq_of_same (hp : top.GoesOn p ns) (hsame : q.normalize.same p = true) :
    q.normalize = p.normalize := by
  have hq : top.GoesOn q.normalize ns := ⟨hp.1, (same_iff.1 hsame).trans hp.2⟩
  have hpn : top.GoesOn p.normalize ns := by
    refine ⟨hp.1, ?_⟩
    rw [components_normalize, normalComponents_of_normal hp.normal, hp.2]
  exact (straight_of_goesOn hq).ext (straight_of_goesOn hpn)

/-- Any names make a straight path. -/
theorem exists_straight (h : ∀ s ∈ ns, IsName s) : ∃ p : Path, p.Straight ns :=
  ⟨⟨"/" ++ joinText '/' ns⟩, h, rfl⟩

theorem straight_of_cutText (h : ModuleMove.cutText '/' p.text = "" :: ns) (hne : ns ≠ [])
    (hns : ∀ s ∈ ns, IsName s) : p.Straight ns := by
  refine ⟨hns, ?_⟩
  rw [← joinText_cutText '/' p.text, h, joinText_cons "" hne, String.empty_append]

/-- Names behind a straight path. -/
theorem Straight.join_names (h : p.Straight ns) (hms : ∀ s ∈ ms, IsName s) (hne : ms ≠ []) :
    (p.join ⟨joinText '/' ms⟩).Straight (ns ++ ms) := by
  refine ⟨List.forall_mem_append.2 ⟨h.1, hms⟩, ?_⟩
  unfold Path.join
  rw [if_neg (by rw [isAbsolute_joinText hms hne]; decide)]
  by_cases hns : ns = []
  · subst hns
    have htext : p.text = "/" := by
      rw [h.2]
      rfl
    rw [if_pos (by rw [htext]; decide)]
    rw [List.nil_append, htext]
  · obtain ⟨ks, k, rfl⟩ := (List.eq_nil_or_concat' ns).resolve_left hns
    -- the path ends with a name, and a name does not end with a slash
    have hlast : ¬ (p.text.isEmpty || p.text.toList.getLast? == some '/') = true := by
      have hk := h.1 k (by simp)
      have hjoin : joinText '/' (ks ++ [k]) = withSlashes ks ++ k := by
        rw [joinText_append ks (by simp), joinText_singleton]
      have hlist : p.text.toList = ("/" ++ withSlashes ks).toList ++ k.toList := by
        rw [h.2, hjoin, ← String.append_assoc, String.toList_append]
      have hne : k.toList ≠ [] := fun h0 => hk.1 (String.toList_eq_nil_iff.1 h0)
      rw [Bool.or_eq_true, String.isEmpty_iff, ← String.toList_eq_nil_iff, beq_iff_eq, hlist,
        List.getLast?_append_of_ne_nil _ hne]
      rintro (h0 | h0)
      · exact hne (List.append_eq_nil_iff.1 h0).2
      · exact hk.2.2.2 (List.mem_of_getLast? h0)
    rw [if_neg hlast]
    show p.text ++ "/" ++ joinText '/' ms = _
    rw [h.2, List.append_assoc, joinText_append ks (by simp), joinText_singleton,
      joinText_append ks (by simp), List.singleton_append, joinText_cons k hne]
    simp only [String.append_assoc]

/-- A name behind a straight path. -/
theorem Straight.join (h : p.Straight ns) (hs : IsName s) :
    (p.join ⟨s⟩).Straight (ns ++ [s]) := by
  have hjoin := h.join_names (List.forall_mem_singleton.2 hs) (List.cons_ne_nil s [])
  rwa [joinText_singleton] at hjoin

/-- What is seen from a straight path begins at the root as well. -/
theorem Straight.isAbsolute_join (h : p.Straight ns) (q : Path) :
    (p.join q).isAbsolute = true := by
  cases hq : q.isAbsolute with
  | true => rw [join_of_isAbsolute hq, hq]
  | false =>
    rw [isAbsolute_iff_components, components_join h.goesOn.text_ne_empty hq, h.components]
    exact ⟨_, rfl⟩

/-- The directory that a straight path is in is straight. -/
theorem Straight.exists_parent (h : p.Straight (ns ++ [s])) :
    ∃ q, p.parent? = some q ∧ q.Straight ns := by
  have hnames : ∀ t ∈ ns, IsName t := fun t ht => h.1 t (List.mem_append_left _ ht)
  -- no pieces are dropped from the end: empty ones and dots are no names
  have hvoid : ∀ {t : String} {r : List String}, IsName t → dropVoid (t :: r) = t :: r := by
    intro t r ht
    cases r with
    | nil => rfl
    | cons u r => simp [dropVoid, ht.1, ht.2.1]
  have hrev : (ModuleMove.cutText '/' p.text).reverse = s :: (ns.reverse ++ [""]) := by
    rw [h.cutText, if_neg (by simp)]
    simp
  have hs : IsName s := h.1 s (by simp)
  refine ⟨⟨"/" ++ joinText '/' ns⟩, ?_, hnames, rfl⟩
  -- directly below the root of the tree, the root is left, and not an empty path
  rcases List.eq_nil_or_concat' ns with rfl | ⟨ks, k, rfl⟩
  · rw [parent?_of_more (t := "") (r := []) (u := "") (q := []) (by rw [hrev, hvoid hs]; rfl) rfl]
    rfl
  · have hk : IsName k := hnames k (by simp)
    have hr : (ks ++ [k]).reverse ++ [""] = k :: (ks.reverse ++ [""]) := by simp
    rw [hr] at hrev
    rw [parent?_of_more (by rw [hrev, hvoid hs]) (hvoid hk), if_neg (by simp)]
    have hback : (k :: (ks.reverse ++ [""])).reverse = "" :: (ks ++ [k]) := by simp
    rw [hback, joinText_cons "" (by simp), String.empty_append]

/-- Only the root of the tree is in no directory. -/
theorem Straight.parent?_nil (h : p.Straight []) : p.parent? = none := by
  have htext : p = ⟨"/"⟩ := h.ext ⟨by simp, rfl⟩
  rw [htext]
  rfl

/-- Above a straight path there are only straight ones. -/
theorem Straight.parent (h : p.Straight ns) : p.parent.Straight ns.dropLast := by
  unfold Path.parent
  rcases List.eq_nil_or_concat' ns with rfl | ⟨ks, k, rfl⟩
  · rw [h.parent?_nil]
    exact h
  · obtain ⟨q, hq, hqs⟩ := h.exists_parent
    rw [hq, List.dropLast_concat]
    exact hqs

/-- A text behind the last name of a straight path. -/
theorem Straight.append (h : p.Straight (ns ++ [s])) {t : String} (ht : '/' ∉ t.toList)
    (hst : IsName (s ++ t)) : (⟨p.text ++ t⟩ : Path).Straight (ns ++ [s ++ t]) := by
  have hcut : ModuleMove.cutText '/' p.text = ("" :: ns) ++ [s] := by
    rw [h.cutText, if_neg (by simp)]
    rfl
  have htail : ModuleMove.cutText '/' t = [t] := cutText_of_not_mem ht
  have hnew : ModuleMove.cutText '/' (p.text ++ t) = "" :: (ns ++ [s ++ t]) :=
    cutText_append hcut htail
  refine straight_of_cutText hnew (by simp) ?_
  intro u hu
  rcases List.mem_append.1 hu with hu | hu
  · exact h.1 u (List.mem_append_left _ hu)
  · rw [List.mem_singleton.1 hu]
    exact hst

/-- An extension behind the last name of a straight path. -/
theorem Straight.withExtension (h : p.Straight (ns ++ [s])) {ext : String}
    (hext : '/' ∉ ext.toList) :
    (p.withExtension ext).Straight (ns ++ [s ++ ("." ++ ext)]) := by
  have hdot : '/' ∉ ("." ++ ext).toList := by
    rw [String.toList_append, List.mem_append]
    rintro (h | h)
    · exact absurd h (by decide)
    · exact hext h
  have heq : p.withExtension ext = ⟨p.text ++ ("." ++ ext)⟩ := by
    unfold Path.withExtension
    rw [String.append_assoc]
  rw [heq]
  exact h.append hdot (isName_append (h.1 s (by simp)) hdot)

end ModuleMove.Path
