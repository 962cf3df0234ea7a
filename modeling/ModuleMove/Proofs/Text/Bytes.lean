import ModuleMove.Text.Bytes
import Mathlib.Data.List.Infix

/-!
# BYTES OF PARTED TEXTS — where a text can be parted, and what the parts are

A beginning of a text is known by its number of bytes: no two beginnings have the same number.
So parting at a byte has at most one outcome, and two partings of one text are nested.

Main statements:
  * `partAtByte?_eq_some_iff` — parting at a byte finds exactly the beginning of that size.
  * `append_eq_append_of_byteLength_le` — of two beginnings the smaller is one of the larger.
-/

namespace ModuleMove

/-! ## §1. Sizes. -/

theorem byteLength_eq_zero {cs : List Char} : byteLength cs = 0 ↔ cs = [] := by
  constructor
  · intro h
    cases cs with
    | nil => rfl
    | cons c r =>
      have hc : 0 < c.utf8Size := c.utf8Size_pos
      rw [byteLength_cons] at h
      omega
  · intro h
    rw [h, byteLength_nil]

theorem byteLength_pos {cs : List Char} (h : cs ≠ []) : 0 < byteLength cs :=
  Nat.pos_of_ne_zero fun h0 => h (byteLength_eq_zero.1 h0)

/-- The size that a string reports is the number of bytes of its characters. -/
theorem utf8ByteSize_eq_byteLength (s : String) : s.utf8ByteSize = byteLength s.toList := by
  have h : ∀ cs : List Char, (String.ofList cs).utf8ByteSize = byteLength cs := by
    intro cs
    induction cs with
    | nil => rfl
    | cons c r ih =>
      rw [← List.singleton_append, String.ofList_append, String.utf8ByteSize_append, ih,
        ← String.singleton_eq_ofList, String.utf8ByteSize_singleton]
      rfl
  rw [← h, String.ofList_toList]

/-! ## §2. Beginnings. -/

/-- Of two beginnings of one text, the smaller is a beginning of the larger. -/
theorem append_eq_append_of_byteLength_le {a b c d : List Char} (h : a ++ b = c ++ d)
    (hle : byteLength a ≤ byteLength c) : ∃ x, c = a ++ x ∧ b = x ++ d := by
  rcases List.append_eq_append_iff.1 h with ⟨x, hc, hb⟩ | ⟨x, ha, hd⟩
  · exact ⟨x, hc, hb⟩
  · -- the other order of sizes leaves nothing between the two beginnings
    have hx : x = [] := by
      rw [ha, byteLength_append] at hle
      exact byteLength_eq_zero.1 (by omega)
    subst hx
    exact ⟨[], by simpa using ha.symm, by simpa using hd.symm⟩

theorem partAtByte?_eq_some_iff {n : Nat} {cs a b : List Char} :
    partAtByte? n cs = some (a, b) ↔ cs = a ++ b ∧ byteLength a = n := by
  constructor
  · exact partAtByte?_eq_some
  · rintro ⟨rfl, rfl⟩
    exact partAtByte?_append a b

end ModuleMove
