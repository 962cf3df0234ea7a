import ModuleMove.Text.Pieces
import Mathlib.Data.List.Basic

/-!
# PIECES OF TEXTS — cutting and joining undo each other

A text is its pieces: they hold no separator, and any pieces without separator come back when the
text made of them is cut.

Main statements:
  * `cutText_joinText` — pieces without the separator come back.
  * `joinText_cutText` — a text is its pieces put together.
-/

namespace ModuleMove

/-! ## §1. Characters. -/

theorem cutChars_of_not_mem {sep : Char} {cs : List Char} (h : sep ∉ cs) :
    cutChars sep cs = [cs] := by
  induction cs with
  | nil => rfl
  | cons c r ih =>
    rw [List.mem_cons, not_or] at h
    rw [cutChars, if_neg (Ne.symm h.1), ih h.2]

theorem not_mem_of_mem_cutChars {sep : Char} {cs p : List Char} (h : p ∈ cutChars sep cs) :
    sep ∉ p := by
  induction cs generalizing p with
  | nil =>
    rw [cutChars, List.mem_singleton] at h
    rw [h]
    exact List.not_mem_nil
  | cons c r ih =>
    rw [cutChars] at h
    split at h
    · rcases List.mem_cons.1 h with rfl | h
      · exact List.not_mem_nil
      · exact ih h
    · rename_i hc
      cases hr : cutChars sep r with
      | nil => exact absurd hr (cutChars_ne_nil sep r)
      | cons q qs =>
        rw [hr] at h ih
        rcases List.mem_cons.1 h with rfl | h
        · -- the first piece got one more character, which is no separator
          rw [List.mem_cons, not_or]
          exact ⟨Ne.symm hc, ih (List.mem_cons_self ..)⟩
        · exact ih (List.mem_cons_of_mem _ h)

theorem joinChars_cons (sep : Char) (p : List Char) {ps : List (List Char)} (h : ps ≠ []) :
    joinChars sep (p :: ps) = p ++ sep :: joinChars sep ps := by
  cases ps with
  | nil => exact absurd rfl h
  | cons q qs => rfl

theorem cutChars_joinChars {sep : Char} {ps : List (List Char)} (hne : ps ≠ [])
    (h : ∀ p ∈ ps, sep ∉ p) : cutChars sep (joinChars sep ps) = ps := by
  induction ps with
  | nil => exact absurd rfl hne
  | cons p ps ih =>
    have hp := h p (List.mem_cons_self ..)
    by_cases hps : ps = []
    · subst hps
      exact cutChars_of_not_mem hp
    · rw [joinChars_cons sep p hps, cutChars_append_sep, cutChars_of_not_mem hp,
        ih hps fun q hq => h q (List.mem_cons_of_mem _ hq)]
      rfl

/-! ## §2. Strings. -/

theorem cutText_ne_nil (sep : Char) (s : String) : cutText sep s ≠ [] := by
  unfold cutText
  rw [Ne, List.map_eq_nil_iff]
  exact cutChars_ne_nil sep _

theorem not_mem_of_mem_cutText {sep : Char} {s p : String} (h : p ∈ cutText sep s) :
    sep ∉ p.toList := by
  obtain ⟨cs, hcs, rfl⟩ := List.mem_map.1 h
  rw [String.toList_ofList]
  exact not_mem_of_mem_cutChars hcs

theorem cutText_of_not_mem {sep : Char} {s : String} (h : sep ∉ s.toList) :
    cutText sep s = [s] := by
  rw [cutText, cutChars_of_not_mem h, List.map_singleton, String.ofList_toList]

theorem joinText_cutText (sep : Char) (s : String) : joinText sep (cutText sep s) = s := by
  have h : (cutText sep s).map String.toList = cutChars sep s.toList := by
    rw [cutText, List.map_map]
    exact List.map_id'' (fun cs => String.toList_ofList) _
  rw [joinText, h, joinChars_cutChars, String.ofList_toList]

theorem cutText_joinText {sep : Char} {ss : List String} (hne : ss ≠ [])
    (h : ∀ s ∈ ss, sep ∉ s.toList) : cutText sep (joinText sep ss) = ss := by
  rw [cutText, joinText, String.toList_ofList, cutChars_joinChars]
  · rw [List.map_map]
    exact List.map_id'' (fun s => String.ofList_toList) _
  · rwa [Ne, List.map_eq_nil_iff]
  · intro p hp
    obtain ⟨s, hs, rfl⟩ := List.mem_map.1 hp
    exact h s hs

/-- A slash between two texts is between their pieces. -/
theorem cutText_slash (s t : String) :
    cutText '/' (s ++ "/" ++ t) = cutText '/' s ++ cutText '/' t := by
  have h : (s ++ "/" ++ t).toList = s.toList ++ '/' :: t.toList := by simp
  rw [cutText, h, cutChars_append_sep, List.map_append]
  rfl

/-- The text of several pieces is the first, a slash and the rest. -/
theorem joinText_cons (s : String) {ss : List String} (h : ss ≠ []) :
    joinText '/' (s :: ss) = s ++ "/" ++ joinText '/' ss := by
  apply String.toList_inj.1
  have hne : ss.map String.toList ≠ [] := by rwa [Ne, List.map_eq_nil_iff]
  simp [joinText, joinChars_cons '/' s.toList hne]

theorem joinText_singleton (sep : Char) (s : String) : joinText sep [s] = s := by
  simp [joinText, joinChars]

/-! ## §3. Beginnings and ends. -/

theorem afterStart?_eq_some {p s t : String} : afterStart? p s = some t ↔ s = p ++ t := by
  unfold afterStart?
  rw [Option.ite_none_right_eq_some, Option.some.injEq, List.isPrefixOf_iff_prefix]
  constructor
  · rintro ⟨⟨r, hr⟩, rfl⟩
    apply String.toList_inj.1
    rw [String.toList_append, String.toList_ofList, ← hr, ← String.length_toList, List.drop_left]
  · rintro rfl
    refine ⟨⟨t.toList, (String.toList_append).symm⟩, ?_⟩
    rw [String.toList_append, ← String.length_toList, List.drop_left, String.ofList_toList]

theorem beforeEnd?_eq_some {p s t : String} : beforeEnd? p s = some t ↔ s = t ++ p := by
  unfold beforeEnd?
  rw [Option.ite_none_right_eq_some, Option.some.injEq, List.isSuffixOf_iff_suffix]
  constructor
  · rintro ⟨⟨r, hr⟩, rfl⟩
    apply String.toList_inj.1
    rw [String.toList_append, String.toList_ofList, ← hr, ← String.length_toList,
      ← String.length_toList, ← hr, List.length_append, Nat.add_sub_cancel, List.take_left]
  · rintro rfl
    refine ⟨⟨t.toList, (String.toList_append).symm⟩, ?_⟩
    rw [String.toList_append, String.length_append, Nat.add_sub_cancel, ← String.length_toList,
      List.take_left, String.ofList_toList]

theorem joinChars_concat (sep : Char) {ps : List (List Char)} (q : List Char) (h : ps ≠ []) :
    joinChars sep (ps ++ [q]) = joinChars sep ps ++ sep :: q := by
  induction ps with
  | nil => exact absurd rfl h
  | cons p ps ih =>
    by_cases hps : ps = []
    · subst hps
      rfl
    · rw [List.cons_append, joinChars_cons sep p (by simp), joinChars_cons sep p hps, ih hps,
        List.append_assoc]
      rfl

/-- The last piece of a text and what comes before it. -/
theorem lastPiece_eq_some {s before after : String}
    (h : lastPiece '.' s = (some before, after)) : s = before ++ "." ++ after := by
  have hs := joinText_cutText '.' s
  unfold lastPiece at h
  split at h
  · cases h
  · cases h
  · rename_i q ps hps hrev
    cases h
    have hcut : cutText '.' s = ps.reverse ++ [after] := by
      rw [← List.reverse_reverse (cutText '.' s), hrev, List.reverse_cons]
    have hne : ps.reverse.map String.toList ≠ [] := by
      rw [Ne, List.map_eq_nil_iff, List.reverse_eq_nil_iff]
      exact hps
    rw [← hs, hcut]
    apply String.toList_inj.1
    unfold joinText
    rw [String.toList_ofList, List.map_append, List.map_singleton,
      joinChars_concat '.' after.toList hne]
    simp

end ModuleMove
