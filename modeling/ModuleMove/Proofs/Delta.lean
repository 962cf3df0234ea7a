import ModuleMove.Delta
import ModuleMove.Proofs.Path.Normal
import ModuleMove.Proofs.Path.Order
import ModuleMove.Proofs.Path.Parent

/-!
# DELTAS — applied to the directory that is left, a delta gives the one that is entered

The directories of the old and the new path share a beginning.  A delta keeps what is left of each
behind it, so leaving the one and entering the other leads from the old directory to the new one.

Main statements:
  * `Delta.compute_eq_ok` — a delta keeps what both directories do not share.
  * `Delta.components_applyTo` — a delta leads to the directory that is entered.
-/

namespace ModuleMove

/-! ## §1. Common beginnings. -/

theorem take_commonLength {α : Type} [DecidableEq α] (as bs : List α) :
    as.take (commonLength as bs) = bs.take (commonLength as bs) := by
  induction as generalizing bs with
  | nil => rfl
  | cons a as ih =>
    cases bs with
    | nil => rfl
    | cons b bs =>
      rw [commonLength]
      split
      · rename_i hab
        rw [Nat.add_comm, List.take_succ_cons, List.take_succ_cons, ih, hab]
      · rfl

theorem commonLength_le_left {α : Type} [DecidableEq α] (as bs : List α) :
    commonLength as bs ≤ as.length := by
  induction as generalizing bs with
  | nil => exact Nat.le_refl 0
  | cons a as ih =>
    cases bs with
    | nil => exact Nat.zero_le _
    | cons b bs =>
      rw [commonLength, List.length_cons]
      split
      · have := ih bs
        omega
      · exact Nat.zero_le _

/-- Lists with nothing in common at the beginning do not begin with the same. -/
theorem head?_ne_of_commonLength {α : Type} [DecidableEq α] {as bs : List α}
    (h : commonLength as bs = 0) (ha : as ≠ []) : as.head? ≠ bs.head? := by
  cases as with
  | nil => exact absurd rfl ha
  | cons a as =>
    cases bs with
    | nil => simp
    | cons b bs =>
      rw [commonLength] at h
      split at h
      · omega
      · rename_i hab
        simpa using hab

/-! ## §2. Components without detours. -/

namespace Path

/-- Only at the beginning can a component without detours be anything but a name or a step up. -/
theorem Normal.plain {cs ds : List Component} {c : Component} (h : Normal (cs ++ c :: ds)) :
    Plain c ∨ c = .root ∧ cs = [] := by
  obtain ⟨a, ns, heq, hns, ha⟩ := h
  have hmem : c ∈ a ++ ns.map Component.name := by
    rw [← heq]
    simp
  rcases List.mem_append.1 hmem with hm | hm
  · rcases ha with rfl | ⟨k, rfl⟩
    · rw [List.mem_singleton] at hm
      subst hm
      right
      refine ⟨rfl, ?_⟩
      -- the root is there once
      cases cs with
      | nil => rfl
      | cons d cs =>
        have htail := (List.cons.inj heq).2
        have : Component.root ∈ ns.map Component.name := by
          rw [show ns.map Component.name = cs ++ .root :: ds from htail.symm]
          simp
        simp at this
    · exact .inl (.inl (List.eq_of_mem_replicate hm))
  · obtain ⟨s, hs, rfl⟩ := List.mem_map.1 hm
    exact .inl (plain_name (hns s hs))

theorem Normal.plain_or_root {cs : List Component} (h : Normal cs) {c : Component} (hc : c ∈ cs) :
    Plain c ∨ c = .root := by
  obtain ⟨as, bs, rfl⟩ := List.append_of_mem hc
  exact h.plain.imp_right (·.1)

/-- A beginning of components without detours has none. -/
theorem Normal.of_append {cs ds : List Component} (h : Normal (cs ++ ds)) : Normal cs := by
  obtain ⟨a, ns, heq, hns, ha⟩ := h
  rcases List.append_eq_append_iff.1 heq with ⟨as, h1, h2⟩ | ⟨bs, h1, h2⟩
  · -- the components stop in what stands before the names
    rcases ha with rfl | ⟨k, rfl⟩
    · rcases List.append_eq_singleton_iff.1 h1.symm with ⟨rfl, -⟩ | ⟨rfl, -⟩
      · exact normal_nil
      · exact normal_root
    · refine ⟨cs, [], (List.append_nil _).symm, by simp, .inr ⟨cs.length, ?_⟩⟩
      rw [List.eq_replicate_iff]
      refine ⟨rfl, fun c hc => List.eq_of_mem_replicate (n := k) ?_⟩
      rw [h1]
      exact List.mem_append_left _ hc
  · refine ⟨a, ns.take bs.length, ?_, fun s hs => hns s (List.mem_of_mem_take hs), ha⟩
    rw [h1, List.map_take, h2, List.take_left]

theorem normal_components_normalize (p : Path) : Normal p.normalize.components := by
  rw [components_normalize]
  exact normal_normalComponents (spelled_components p)

theorem text_inj {c d : Component} (hc : Plain c ∨ c = .root) (hd : Plain d ∨ d = .root)
    (h : c.text = d.text) : c = d := by
  rcases hc with (rfl | ⟨s, rfl, hs⟩) | rfl <;> rcases hd with (rfl | ⟨t, rfl, ht⟩) | rfl
  · rfl
  · exact absurd h.symm ht.2.2.1
  · exact absurd h (by decide)
  · exact absurd h hs.2.2.1
  · exact congrArg Component.name h
  · exact absurd (by rw [show s = "/" from h]; decide) hs.2.2.2
  · exact absurd h (by decide)
  · exact absurd (by rw [show t = "/" from h.symm]; decide) ht.2.2.2
  · rfl

theorem textsOf_inj {cs ds : List Component} (hc : ∀ c ∈ cs, Plain c ∨ c = .root)
    (hd : ∀ d ∈ ds, Plain d ∨ d = .root) (h : textsOf cs = textsOf ds) : cs = ds := by
  induction cs generalizing ds with
  | nil => exact (List.map_eq_nil_iff.1 h.symm).symm
  | cons c cs ih =>
    cases ds with
    | nil => cases h
    | cons d ds =>
      obtain ⟨h1, h2⟩ := List.cons.inj h
      rw [text_inj (hc c (List.mem_cons_self ..)) (hd d (List.mem_cons_self ..)) h1,
        ih (fun b hb => hc b (List.mem_cons_of_mem _ hb))
          (fun b hb => hd b (List.mem_cons_of_mem _ hb)) h2]

/-- A component is put behind a path, where it can stand there without a detour. -/
theorem components_join_text (p : Path) {c : Component}
    (h : Plain c ∨ c = .root ∧ p.components = []) :
    (p.join ⟨c.text⟩).components = p.components ++ [c] := by
  rcases h with (rfl | ⟨s, rfl, hs⟩) | ⟨rfl, hp⟩
  · by_cases hp : p.text = ""
    · have hjoin : p.join ⟨".."⟩ = ⟨".."⟩ := by
        unfold join
        rw [if_neg (by decide), if_pos (by rw [hp]; rfl), hp]
        rfl
      show (p.join ⟨".."⟩).components = _
      rw [hjoin, components_eq_nil_iff.2 hp]
      rfl
    · show (p.join ⟨".."⟩).components = _
      rw [components_join hp (by decide)]
      rfl
  · exact components_join_name p hs
  · rw [hp, join_of_isAbsolute (by decide)]
    rfl

theorem components_foldl_join {p : Path} {cs : List Component} (h : Normal (p.components ++ cs)) :
    ((textsOf cs).foldl (fun q s => q.join ⟨s⟩) p).components = p.components ++ cs := by
  induction cs generalizing p with
  | nil => rw [List.append_nil]; rfl
  | cons c cs ih =>
    have hone := components_join_text p h.plain
    show ((textsOf cs).foldl _ (p.join ⟨c.text⟩)).components = _
    rw [ih, hone, List.append_assoc]
    · rfl
    · rwa [hone, List.append_assoc]

theorem components_foldl_parent {p : Path} {cs xs : List Component} {l : List String}
    (h : p.components = cs ++ xs) (hx : Component.root ∉ xs) (hl : l.length = xs.length) :
    (l.foldl (fun q _ => q.parent?.getD q) p).components = cs := by
  induction l generalizing p xs with
  | nil =>
    obtain rfl := List.length_eq_zero_iff.1 hl.symm
    rwa [List.append_nil] at h
  | cons s l ih =>
    rcases List.eq_nil_or_concat' xs with rfl | ⟨ys, y, rfl⟩
    · cases hl
    · rw [← List.append_assoc] at h
      obtain ⟨q, hq, hqc⟩ := parent?_eq_some h fun h0 => hx (by rw [h0]; simp)
      rw [List.foldl_cons, hq]
      refine ih hqc (fun h0 => hx (List.mem_append_left _ h0)) ?_
      simpa using hl

end Path

namespace Delta

open ModuleMove.Path

/-! ## §3. What a delta keeps. -/

theorem inside_iff {root p : Path} : inside root p = true ↔
    ∃ cs c, p.components = root.components ++ (cs ++ [c]) := by
  unfold inside Path.isUnder Path.same
  rw [Bool.and_eq_true, List.isPrefixOf_iff_prefix, Bool.not_eq_true', beq_eq_false_iff_ne]
  constructor
  · rintro ⟨⟨ds, hds⟩, hne⟩
    rcases List.eq_nil_or_concat' ds with rfl | ⟨cs, c, rfl⟩
    · rw [List.append_nil] at hds
      exact absurd hds.symm hne
    · exact ⟨cs, c, hds.symm⟩
  · rintro ⟨cs, c, h⟩
    refine ⟨⟨_, h.symm⟩, ?_⟩
    rw [h]
    simp

/-- The directory of a place in the project. -/
theorem components_directory {root p : Path} {cs : List Component} {c : Component}
    (h : p.components = root.components ++ (cs ++ [c])) (hn : Normal p.components) :
    (p.parent?.getD root).components = root.components ++ cs := by
  rw [← List.append_assoc] at h
  rw [h] at hn
  rcases hn.plain with hc | ⟨rfl, hnil⟩
  · have hroot : c ≠ .root := by
      rintro rfl
      rcases hc with hc | ⟨s, hs, -⟩
      · cases hc
      · cases hs
    obtain ⟨q, hq, hqc⟩ := parent?_eq_some h hroot
    rw [hq]
    exact hqc
  · -- the root has no parent
    rw [hnil, List.nil_append] at h
    rcases parent?_cases p with ⟨hp, -⟩ | ⟨q, ds, d, -, hd, hroot, -⟩
    · rw [hp]
      show root.components = _
      rw [hnil]
      exact (List.append_eq_nil_iff.1 hnil).1
    · rw [h] at hd
      rcases List.append_eq_singleton_iff.1 hd.symm with ⟨-, h'⟩ | ⟨-, h'⟩
      · exact absurd (List.cons.inj h').1 hroot
      · cases h'

theorem segmentsBelow_eq {root p : Path} {cs : List Component}
    (h : p.components = root.components ++ cs) : segmentsBelow p root = textsOf cs := by
  unfold segmentsBelow Path.below?
  rw [if_pos, h, List.drop_left]
  · rfl
  · rw [List.isPrefixOf_iff_prefix, h]
    exact List.prefix_append _ _

theorem removed_between (old new : List String) :
    (between old new).removed = old.drop (commonLength old new) := by
  unfold between
  simp only
  split <;> simp_all

theorem added_between (old new : List String) :
    (between old new).added = new.drop (commonLength old new) := by
  unfold between
  simp only
  split <;> simp_all

/-- **A delta keeps what the old and the new directory do not share.** -/
theorem compute_eq_ok {old new root : Path} {δ : Delta} (h : compute old new root = .ok δ) :
    ∃ cs xs ys a b, old.normalize.components = root.normalize.components ++ (cs ++ xs ++ [a]) ∧
      new.normalize.components = root.normalize.components ++ (cs ++ ys ++ [b]) ∧
      δ.removed = textsOf xs ∧ δ.added = textsOf ys := by
  unfold compute at h
  simp only at h
  split at h
  · cases h
  split at h
  · cases h
  split at h
  · cases h
  rename_i _ hold hnew
  have hold : inside root.normalize old.normalize = true := by simpa using hold
  have hnew : inside root.normalize new.normalize = true := by simpa using hnew
  obtain ⟨as, a, ha⟩ := inside_iff.1 hold
  obtain ⟨bs, b, hb⟩ := inside_iff.1 hnew
  have hna := normal_components_normalize old
  have hnb := normal_components_normalize new
  have hpa := components_directory ha hna
  have hpb := components_directory hb hnb
  split at h
  -- in one directory, nothing is left and nothing is entered
  · rename_i hsame
    cases h
    rw [Path.same_iff, hpa, hpb] at hsame
    obtain rfl := List.append_cancel_left hsame
    refine ⟨as, [], [], a, b, ?_, ?_, rfl, rfl⟩
    · rw [List.append_nil, ha]
    · rw [List.append_nil, hb]
  · obtain rfl := Except.ok.inj h
    rw [removed_between, added_between, segmentsBelow_eq hpa, segmentsBelow_eq hpb]
    -- the delta compares texts, and these are the texts of no other components here
    have hshared : as.take (commonLength (textsOf as) (textsOf bs))
        = bs.take (commonLength (textsOf as) (textsOf bs)) := by
      have hplain : ∀ (p : Path) (cs : List Component) (c : Component),
          p.components = root.normalize.components ++ (cs ++ [c]) → Normal p.components →
          ∀ d ∈ cs, Plain d ∨ d = .root := by
        intro p cs c hp hn d hd
        refine hn.plain_or_root ?_
        rw [hp]
        simp [hd]
      refine textsOf_inj (fun c hc => hplain _ as a ha hna c (List.mem_of_mem_take hc))
        (fun c hc => hplain _ bs b hb hnb c (List.mem_of_mem_take hc)) ?_
      unfold textsOf
      rw [List.map_take, List.map_take]
      exact take_commonLength (textsOf as) (textsOf bs)
    refine ⟨as.take (commonLength (textsOf as) (textsOf bs)),
      as.drop (commonLength (textsOf as) (textsOf bs)),
      bs.drop (commonLength (textsOf as) (textsOf bs)), a, b, ?_, ?_, ?_, ?_⟩
    · rw [List.take_append_drop, ha]
    · rw [hshared, List.take_append_drop, hb]
    · exact (List.map_drop ..).symm
    · exact (List.map_drop ..).symm

/-! ## §4. Where a delta leads. -/

/-- **A delta leads from the directory that is left to the one that is entered.** -/
theorem components_applyTo {δ : Delta} {dir : Path} {cs xs ys : List Component}
    (hr : δ.removed = textsOf xs) (ha : δ.added = textsOf ys)
    (hdir : dir.components = cs ++ xs) (hx : Component.root ∉ xs) (hy : Normal (cs ++ ys)) :
    (δ.applyTo dir).components = cs ++ ys := by
  unfold applyTo
  simp only
  have hup := components_foldl_parent (l := δ.removed) hdir hx (by rw [hr]; simp [textsOf])
  rw [ha, components_foldl_join, hup]
  rwa [hup]

end Delta

end ModuleMove
