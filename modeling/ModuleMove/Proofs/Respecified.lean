import ModuleMove.Proofs.Direction

/-!
# RESPECIFIED — a specifier written anew leads where it should and keeps its style

A specifier is written from the components of a directory and of the place it is to lead to, and
it is read by joining texts and taking out detours.  These are two different ways, and they undo
each other wherever the place lies: below the directory, above it, beside it, or outside of the
project.

Main statements:
  * `Specifier.climbs_relative` — a relative specifier climbs out of what is not shared, and no
    further.
  * `Specifier.respecified` — where a specifier written anew leads, and how it begins.
-/

namespace ModuleMove

open ModuleMove.Path

/-! ## §1. The shared beginning. -/

/-- Two lists part behind as many elements as they have in common. -/
theorem Parting.commonLength_eq {α : Type} [DecidableEq α] {ls ms cs as bs : List α}
    (h : Parting ls ms cs as bs) : commonLength ls ms = cs.length := by
  obtain ⟨rfl, rfl, happart⟩ := h
  induction cs with
  | nil =>
    cases as with
    | nil => rfl
    | cons a as =>
      cases bs with
      | nil => rfl
      | cons b bs =>
        have hab : a ≠ b := fun hab => happart a rfl (by rw [hab]; rfl)
        rw [List.nil_append, List.nil_append, commonLength, if_neg hab]
        rfl
  | cons c cs ih => rw [List.cons_append, List.cons_append, commonLength, if_pos rfl, ih,
      List.length_cons, Nat.add_comm]

namespace Specifier

/-! ## §2. Steps up. -/

/-- The number of steps up with which a specifier begins. -/
def climbs (s : String) : Nat := ((cutText '/' s).takeWhile (· == "..")).length

theorem takeWhile_ups (n : Nat) {ns : List String} (h : ∀ s ∈ ns, IsName s) :
    ((ups n ++ ns).takeWhile (· == "..")).length = n := by
  have hnames : ns.takeWhile (· == "..") = [] := by
    cases ns with
    | nil => rfl
    | cons s ns =>
      have hs : s ≠ ".." := (h s (List.mem_cons_self ..)).2.2.1
      rw [List.takeWhile_cons, beq_eq_false_iff_ne.2 hs]
      rfl
  cases n with
  | zero => rfl
  | succ n =>
    have hall : ∀ s ∈ List.replicate (n + 1) "..", (s == "..") = true := by
      intro s hs
      rw [List.eq_of_mem_replicate hs]
      rfl
    show ((List.replicate (n + 1) ".." ++ ns).takeWhile _).length = _
    rw [List.takeWhile_append_of_pos hall, hnames, List.append_nil, List.length_replicate]

/-- **A relative specifier climbs out of what the directory does not share with the place**, and no
    further. -/
theorem climbs_relative {dir target : Path} {ds ts : List String} {cs xs ys : List Component}
    (hd : top.GoesOn dir ds) (ht : top.GoesOn target ts)
    (h : Parting dir.components target.components cs xs ys) :
    climbs (relative dir target) = xs.length := by
  let k := commonLength (ds.map Component.name) (ts.map Component.name)
  -- the root is shared, and behind it the names are compared
  have hcs : cs.length = 1 + k := by
    rw [← h.commonLength_eq, hd.2, ht.2]
    show (if Component.root = Component.root then _ else _) = _
    rw [if_pos rfl]
    rfl
  have hlength : 1 + ds.length = cs.length + xs.length := by
    rw [← List.length_append, ← h.left, hd.2, List.length_append, List.length_map]
    rfl
  have hxs : (ds.drop k).length = xs.length := by
    rw [List.length_drop]
    omega
  unfold climbs
  rw [cutText_relative_drop hd ht, hxs]
  exact takeWhile_ups _ fun s hs => ht.1 s (List.mem_of_mem_drop hs)

/-! ## §3. How a specifier begins. -/

theorem isAnchored_iff_head? {s : String} : isAnchored s = true ↔ s.toList.head? = some '/' := by
  rw [isAnchored_iff_isAbsolute]
  exact beq_iff_eq

/-- A relative specifier begins with a dot. -/
theorem head?_relative {dir target : Path} {ds ts : List String} (hd : top.GoesOn dir ds)
    (ht : top.GoesOn target ts) : (relative dir target).toList.head? = some '.' := by
  obtain ⟨cs, xs, ys, -, -, hcut⟩ := cutText_relative hd ht
  obtain ⟨s, ss, hups, hs⟩ := exists_ups xs.length
  obtain ⟨t, ht⟩ : ∃ t, relative dir target = s ++ t := by
    rw [← joinText_cutText '/' (relative dir target), hcut, hups, List.cons_append]
    by_cases hne : ss ++ ys = []
    · exact ⟨"", by rw [hne, joinText_singleton, String.append_empty]⟩
    · exact ⟨"/" ++ joinText '/' (ss ++ ys), by rw [joinText_cons s hne, String.append_assoc]⟩
  rw [ht, String.toList_append]
  rcases hs with rfl | rfl <;> rfl

theorem isRelativeSpecifier_of_head? {s : String}
    (h : s.toList.head? = some '/' ∨ s.toList.head? = some '.') : isRelativeSpecifier s = true := by
  unfold isRelativeSpecifier
  rcases h with h | h
  all_goals
    obtain ⟨r, hr⟩ := List.head?_eq_some_iff.1 h
    simp only [hr]

/-! ## §4. Either style. -/

/-- What is expected of a specifier that is written in the style of another one, for the place
    `target` and a file in the directory `dir`. -/
structure WrittenFor (former s : String) (dir target root : Path) : Prop where
  /-- It leads to the place, in the place's only spelling without detours. -/
  leads : resolve s dir root = target.normalize ∧ (resolve s dir root).same target = true
  /-- It begins with a slash exactly if the other one does, -/
  anchored : s.toList.head? = some '/' ↔ former.toList.head? = some '/'
  /-- and with a dot otherwise, -/
  dotted : former.toList.head? ≠ some '/' → s.toList.head? = some '.'
  /-- so that it always names a file of the project. -/
  isRelative : isRelativeSpecifier s = true
  /-- Without the slash, it climbs as often as the directory has components beyond those that it
      shares with the place. -/
  climbing : former.toList.head? ≠ some '/' → ∀ cs xs ys,
    Parting dir.components target.components cs xs ys → climbs s = xs.length

/-- **A specifier that is written anew leads where it should and keeps its style**, wherever the
    place lies. -/
theorem respecified (former : String) {dir target root : Path} (hd : dir.Direct)
    (ht : target.Direct) (hr : root.Direct) :
    WrittenFor former (respecify former dir target root) dir target root := by
  obtain ⟨ds, hd⟩ := hd.exists_goesOn
  obtain ⟨ts, ht⟩ := ht.exists_goesOn
  obtain ⟨rs, hr⟩ := hr.exists_goesOn
  have hleads := resolve_respecify former hd hr ht
  have hanchored : (respecify former dir target root).toList.head? = some '/' ↔
      former.toList.head? = some '/' := by
    rw [← isAnchored_iff_head?, ← isAnchored_iff_head?, isAnchored_respecify former hd ht]
  -- without a slash in front, what is written is the relative specifier
  have hrelative : former.toList.head? ≠ some '/' →
      respecify former dir target root = relative dir target := by
    intro h
    unfold respecify
    rw [if_neg]
    exact fun h' => h (isAnchored_iff_head?.1 h')
  have hdotted : former.toList.head? ≠ some '/' →
      (respecify former dir target root).toList.head? = some '.' := by
    intro h
    rw [hrelative h]
    exact head?_relative hd ht
  refine ⟨⟨?_, hleads⟩, hanchored, hdotted, ?_, ?_⟩
  · obtain ⟨q, hq⟩ : ∃ q : Path,
        resolve (respecify former dir target root) dir root = q.normalize := by
      unfold resolve
      split
      · exact ⟨_, rfl⟩
      · exact ⟨_, rfl⟩
    rw [hq] at hleads ⊢
    exact normalize_eq_of_same ht hleads
  · refine isRelativeSpecifier_of_head? ?_
    by_cases h : former.toList.head? = some '/'
    · exact .inl (hanchored.2 h)
    · exact .inr (hdotted h)
  · intro h cs xs ys hp
    rw [hrelative h]
    exact climbs_relative hd ht hp

/-- A place beside the directory, outside of the project. -/
theorem respecified_outside :
    Direct ⟨"/p/app/a/b"⟩ ∧ Direct ⟨"/p/lib"⟩ ∧ Direct ⟨"/p/app"⟩ ∧
      respecify "./x" ⟨"/p/app/a/b"⟩ ⟨"/p/lib"⟩ ⟨"/p/app"⟩ = "../../../lib" ∧
      WrittenFor "./x" "../../../lib" ⟨"/p/app/a/b"⟩ ⟨"/p/lib"⟩ ⟨"/p/app"⟩ := by
  have hd : Direct ⟨"/p/app/a/b"⟩ := by decide +kernel
  have ht : Direct ⟨"/p/lib"⟩ := by decide +kernel
  have hr : Direct ⟨"/p/app"⟩ := by decide +kernel
  have htext : respecify "./x" ⟨"/p/app/a/b"⟩ ⟨"/p/lib"⟩ ⟨"/p/app"⟩ = "../../../lib" := by
    decide +kernel
  exact ⟨hd, ht, hr, htext, htext ▸ respecified "./x" hd ht hr⟩

end Specifier

end ModuleMove
