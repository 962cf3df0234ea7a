import ModuleMove.Path.Basic
import Mathlib.Data.List.Sort

/-!
# THE ORDER OF PATHS — a total order on the components

Paths are compared by their components, component by component.  So the order tells paths apart
exactly when they name different places, and a sorted list of paths has each place once.

Main statements:
  * `Path.compare_eq_iff` — the order does not tell two spellings of one place apart.
  * `instTransCmpCompare` — the order is transitive and has two directions.
-/

namespace ModuleMove

/-! ## §1. Components. -/

namespace Component

/-- The place of the kinds of components in their order. -/
def rank : Component → Nat
  | root => 0
  | current => 1
  | up => 2
  | name _ => 3

/-- The order of components is that of their kinds, and for names that of the texts. -/
theorem compare_eq_compareLex :
    Component.compare =
      compareLex (compareOn Component.rank) (compareOn Component.text) := by
  funext a b
  cases a with
  | name s =>
    cases b with
    | name t =>
      show _ = compareOfLessAndEq s t
      unfold compareOfLessAndEq
      show (if s < t then Ordering.lt else if t < s then .gt else .eq) = _
      by_cases h : s < t
      · rw [if_pos h, if_pos h]
      · rw [if_neg h, if_neg h]
        by_cases he : s = t
        · rw [if_pos he, he, if_neg (String.lt_irrefl t)]
        · rw [if_neg he, if_pos]
          rcases String.le_total s t with hle | hle
          · exact absurd (String.le_antisymm hle (String.not_lt.1 h)) he
          · exact String.not_le.1 fun h' => he (String.le_antisymm h' hle)
    | root => rfl
    | current => rfl
    | up => rfl
  | root => cases b <;> rfl
  | current => cases b <;> rfl
  | up => cases b <;> rfl

instance : Std.TransCmp Component.compare := by
  rw [compare_eq_compareLex]
  infer_instance

instance : Std.LawfulEqCmp Component.compare where
  compare_self := Std.ReflCmp.compare_self
  eq_of_compare := by
    intro a b h
    rw [compare_eq_compareLex, compareLex_eq_eq] at h
    obtain ⟨hr, ht⟩ := h
    have ht : a.text = b.text := Std.LawfulEqCmp.eq_of_compare ht
    have hr : a.rank = b.rank := Std.LawfulEqCmp.eq_of_compare hr
    cases a <;> cases b <;> first | rfl | exact congrArg name ht | cases hr

end Component

/-! ## §2. Paths. -/

namespace Path

theorem compare_eq_compareLex (p q : Path) :
    p.compare q = List.compareLex Component.compare p.components q.components := by
  unfold compare
  generalize p.components = as
  generalize q.components = bs
  induction as generalizing bs with
  | nil => cases bs <;> rfl
  | cons a as ih =>
    cases bs with
    | nil => rfl
    | cons b bs =>
      rw [compare.compareLists, List.compareLex]
      cases a.compare b with
      | lt => rfl
      | eq => exact ih bs
      | gt => rfl

instance instTransCmpCompare : Std.TransCmp Path.compare where
  eq_swap := by
    intro p q
    rw [compare_eq_compareLex, compare_eq_compareLex]
    exact Std.OrientedCmp.eq_swap
  isLE_trans := by
    intro p q r
    rw [compare_eq_compareLex, compare_eq_compareLex, compare_eq_compareLex]
    exact Std.TransCmp.isLE_trans

theorem compare_lt_trans {p q r : Path} (h : p.compare q = .lt) (h' : q.compare r = .lt) :
    p.compare r = .lt :=
  @Std.TransCmp.lt_trans Path Path.compare _ p q r h h'

theorem compare_lt_of_gt {p q : Path} (h : p.compare q = .gt) : q.compare p = .lt :=
  @Std.OrientedCmp.lt_of_gt Path Path.compare _ p q h

theorem same_iff {p q : Path} : p.same q = true ↔ p.components = q.components := by
  unfold same
  rw [beq_iff_eq]

theorem same_refl (p : Path) : p.same p = true := same_iff.2 rfl

theorem same_symm {p q : Path} (h : p.same q = true) : q.same p = true :=
  same_iff.2 (same_iff.1 h).symm

theorem same_trans {p q r : Path} (h : p.same q = true) (h' : q.same r = true) :
    p.same r = true :=
  same_iff.2 ((same_iff.1 h).trans (same_iff.1 h'))

/-- In a list in which each place is once, two things at one place are one thing. -/
theorem eq_of_same {α : Type} (key : α → Path) {l : List α}
    (h : l.Pairwise fun a b => (key a).same (key b) = false) {a b : α} (ha : a ∈ l) (hb : b ∈ l)
    (hs : (key a).same (key b) = true) : a = b := by
  have hR : l.Pairwise fun a b => (key a).same (key b) = true → a = b := by
    refine h.imp fun {a b} hab hs => ?_
    rw [hab] at hs
    cases hs
  have hflip : l.Pairwise (flip fun a b => (key a).same (key b) = true → a = b) := by
    refine h.imp fun {a b} hab hs => ?_
    rw [same_symm hs] at hab
    cases hab
  exact List.Pairwise.forall_of_forall_of_flip (fun _ _ _ => rfl) hR hflip ha hb hs

/-- **The order tells no two spellings of one place apart, and any two places.** -/
theorem compare_eq_iff {p q : Path} : p.compare q = .eq ↔ p.same q = true := by
  rw [same_iff, compare_eq_compareLex]
  exact Std.LawfulEqCmp.compare_eq_iff_eq

theorem same_eq_false {p q : Path} (h : p.compare q ≠ .eq) : p.same q = false :=
  Bool.eq_false_iff.2 (mt compare_eq_iff.2 h)

end Path

end ModuleMove
