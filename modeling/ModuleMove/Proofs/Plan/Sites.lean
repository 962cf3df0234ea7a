import ModuleMove.Plan.Barrel
import ModuleMove.Proofs.Edit.Splice
import ModuleMove.Proofs.Plan.SpecifierEdit
import ModuleMove.Proofs.Source.Placement

/-!
# SITES OF EDITS — edits at different references stay out of each other's way

An edit of a reference lies in its specifier.  A removal takes the statement of an export away, and
the end of its line; no other reference begins in a line end.  A line is put in where a statement
stops.  So what is done at one reference is beside what is done at another.

Main statements:
  * `conflicts_of_beside` — edits beside each other are not in conflict.
  * `beside_of_apart` — edits at two references are beside each other.
-/

namespace ModuleMove

open Grammar
open Preparation (lineEnd)

/-! ## §1. Edits beside each other. -/

namespace Edit

/-- One of the edits stops before the other begins, and they do not put two texts in at one
    byte. -/
def Beside (a b : Edit) : Prop :=
  (a.extent.stop ≤ b.offset ∨ b.extent.stop ≤ a.offset) ∧
    ¬ (a.isInsert = true ∧ b.isInsert = true ∧ a.offset = b.offset)

/-- An edit is not beside itself. -/
theorem Beside.ne {a b : Edit} (h : a.Beside b) (hs : a.Substantial) : a ≠ b := by
  rintro rfl
  obtain ⟨hle, hins⟩ := h
  cases hi : a.isInsert with
  | true => exact hins ⟨hi, hi, rfl⟩
  | false =>
    have := offset_lt_stop hs hi
    omega

/-- **Edits beside each other are not in conflict.** -/
theorem conflicts_of_beside {a b : Edit} (ha : a.Bounded) (hb : b.Bounded) (h : a.Beside b) :
    a.conflicts b = false := by
  have ha' := a.offset_le_stop
  have hb' := b.offset_le_stop
  rw [conflicts_eq ha hb]
  rcases h.1 with h | h <;> cases a.isInsert <;> cases b.isInsert <;>
    simp only [Bool.and_eq_false_iff, decide_eq_false_iff_not] <;> omega

/-- An edit that takes something away is beside those that it is not in conflict with. -/
theorem beside_of_not_conflicts {a b : Edit} (ha : a.Bounded) (hb : b.Bounded)
    (hno : a.isInsert = false) (h : a.conflicts b = false) : a.Beside b := by
  refine ⟨?_, fun ⟨hi, _⟩ => by rw [hno] at hi; cases hi⟩
  have hb' := b.offset_le_stop
  have ha' := a.offset_le_stop
  rw [conflicts_eq ha hb, hno] at h
  -- the first edit takes something away, so that the second one may be an insertion at its end
  cases hi : b.isInsert with
  | true =>
    have hstop := extent_stop_of_isInsert hi
    rw [hi] at h
    simp only [Bool.and_eq_false_iff, decide_eq_false_iff_not] at h
    omega
  | false =>
    rw [hi] at h
    simp only [Bool.and_eq_false_iff, decide_eq_false_iff_not] at h
    omega

/-- Something lies between the edits. -/
def Away (a b : Edit) : Prop := a.extent.stop < b.offset ∨ b.extent.stop < a.offset

theorem Away.beside {a b : Edit} (h : a.Away b) : a.Beside b := by
  have ha := a.offset_le_stop
  have hb := b.offset_le_stop
  refine ⟨h.imp Nat.le_of_lt Nat.le_of_lt, fun ⟨_, _, heq⟩ => ?_⟩
  rcases h with h | h <;> omega

theorem Away.not_contains {a b : Edit} (h : a.Away b) : b.extent.contains a.extent = false := by
  have ha := a.offset_le_stop
  have hb := b.offset_le_stop
  have ha' : a.extent.start = a.offset := rfl
  have hb' : b.extent.start = b.offset := rfl
  unfold Span.contains
  rw [ha', hb', Bool.and_eq_false_iff, decide_eq_false_iff_not, decide_eq_false_iff_not]
  rcases h with h | h <;> omega

/-! ## §2. Edits of a specifier. -/

/-- The edit lies in the specifier of the reference. -/
def Within (e : Edit) (r : Reference) : Prop :=
  r.span.start ≤ e.offset ∧ e.extent.stop ≤ r.span.stop

/-- An edit in a specifier is inside of what belongs to the reference. -/
theorem Within.inside {e : Edit} {r : Reference} {cs : List Char} (h : e.Within r)
    (hr : r.StandsIn cs) : r.extent.start < e.offset ∧ e.extent.stop < r.extent.stop := by
  obtain ⟨h1, h2⟩ := hr.within
  obtain ⟨h3, h4⟩ := h
  exact ⟨by omega, by omega⟩

end Edit

/-- The text around a specifier. -/
theorem Reference.StandsIn.around {cs : List Char} {r : Reference} (h : r.StandsIn cs) :
    ∃ a b, cs = a ++ r.specifier.toList ++ b ∧ byteLength a = r.span.start := by
  obtain ⟨a, q, b, rfl, hq, ha⟩ := h.quoted
  refine ⟨a ++ [q], q :: b, by simp, ?_⟩
  rw [byteLength_append, ← ha, byteLength_cons, utf8Size_of_quote hq]
  rfl

/-- An edit of a part of a specifier fits the text and lies in the specifier. -/
theorem fitsIn_of_part {cs : List Char} {r : Reference} {e : Edit} {a b : String}
    (hr : r.StandsIn cs) (ht : r.specifier = a ++ e.expected ++ b)
    (ho : e.offset = r.span.start + byteLength a.toList) : e.FitsIn cs ∧ e.Within r := by
  obtain ⟨x, y, rfl, hx⟩ := hr.around
  have hspec : r.specifier.toList = a.toList ++ e.expected.toList ++ b.toList := by
    rw [ht, String.toList_append, String.toList_append]
  constructor
  · refine ⟨x ++ a.toList, b.toList ++ y, ?_, ?_⟩
    · rw [hspec]
      simp only [List.append_assoc]
    · rw [byteLength_append, hx, ho]
  · refine ⟨by omega, ?_⟩
    show e.offset + byteLength e.expected.toList ≤ _
    rw [hr.stop_eq, hspec, byteLength_append, byteLength_append]
    omega

/-! ## §3. Line ends. -/

/-- The character at a byte, if one begins there. -/
def charAt? (cs : List Char) (n : Nat) : Option Char := (fromByte? cs n).bind List.head?

theorem charAt?_append {a b : List Char} {c : Char} :
    charAt? (a ++ c :: b) (byteLength a) = some c := by
  unfold charAt? fromByte?
  rw [partAtByte?_append]
  rfl

theorem fromByte?_eq_some {cs b : List Char} {n : Nat} (h : fromByte? cs n = some b) :
    ∃ a, cs = a ++ b ∧ byteLength a = n := by
  unfold fromByte? at h
  obtain ⟨⟨a, b'⟩, hp, rfl⟩ := Option.map_eq_some_iff.1 h
  exact ⟨a, partAtByte?_eq_some hp⟩

/-- The bytes from the end of a statement to the end of its line are a line end. -/
theorem lineEnd_spec (cs : List Char) (stop : Nat) :
    stop ≤ lineEnd cs stop ∧ ∀ n, stop ≤ n → n < lineEnd cs stop →
      charAt? cs n = some '\r' ∨ charAt? cs n = some '\n' := by
  unfold lineEnd
  split
  · rename_i b hb
    obtain ⟨a, rfl, ha⟩ := fromByte?_eq_some hb
    refine ⟨by omega, fun n h1 h2 => ?_⟩
    have hn : n = stop ∨ n = stop + 1 := by omega
    rcases hn with rfl | rfl
    · left
      rw [← ha]
      exact charAt?_append
    · right
      have hlen : stop + 1 = byteLength (a ++ ['\r']) := by
        rw [byteLength_append, ha]
        rfl
      rw [hlen, List.append_cons]
      exact charAt?_append
  · rename_i b hb
    obtain ⟨a, rfl, ha⟩ := fromByte?_eq_some hb
    refine ⟨by omega, fun n h1 h2 => ?_⟩
    obtain rfl : n = stop := by omega
    right
    rw [← ha]
    exact charAt?_append
  · exact ⟨Nat.le_refl _, fun n h1 h2 => absurd h1 (by omega)⟩

/-- What belongs to a reference begins with a quote, with the word of an export or with a
    decorator. -/
theorem Reference.StandsIn.charAt_start {cs : List Char} {r : Reference} (h : r.StandsIn cs) :
    ∃ c, charAt? cs r.extent.start = some c ∧ c ≠ '\r' ∧ c ≠ '\n' := by
  unfold Reference.extent
  -- an import begins with its quote, and an export with a letter or a decorator
  cases hk : r.kind with
  | imports =>
    obtain ⟨a, q, b, rfl, hq, ha⟩ := h.quoted
    have hstart : r.whole.start = byteLength a := by
      show r.span.start - 1 = _
      omega
    refine ⟨q, ?_, ?_, ?_⟩
    · show charAt? _ r.whole.start = _
      rw [hstart]
      exact charAt?_append
    · rcases hq with rfl | rfl <;> decide
    · rcases hq with rfl | rfl <;> decide
  | exports =>
    have hc := h.covers hk
    unfold coversExport opensExport at hc
    rw [Bool.and_eq_true] at hc
    have hopen := hc.1
    split at hopen
    · rename_i a c b hp
      have hc : c = 'e' ∨ c = '@' := by simpa using hopen
      refine ⟨c, ?_, ?_, ?_⟩
      · show (fromByte? cs r.statement.start).bind _ = _
        unfold fromByte?
        rw [hp]
        rfl
      · rcases hc with rfl | rfl <;> decide
      · rcases hc with rfl | rfl <;> decide
    · cases hopen

/-- Nothing that belongs to a reference begins in a line end. -/
theorem Reference.StandsIn.lineEnd_le {cs : List Char} {r : Reference} (h : r.StandsIn cs)
    {stop : Nat} (hle : stop ≤ r.extent.start) : lineEnd cs stop ≤ r.extent.start := by
  by_contra hlt
  obtain ⟨c, hc, hr, hn⟩ := h.charAt_start
  rcases (lineEnd_spec cs stop).2 _ hle (by omega) with h' | h'
  · rw [hc] at h'
    exact hr (Option.some.inj h')
  · rw [hc] at h'
    exact hn (Option.some.inj h')

/-! ## §4. Edits at two references. -/

/-- What is done at a reference: something in its specifier, or its removal with the line end. -/
def Edit.At (cs : List Char) (r : Reference) (e : Edit) : Prop :=
  e.Within r ∨
    r.kind = .exports ∧ e.offset = r.statement.start ∧ e.extent.stop = lineEnd cs r.statement.stop

/-- What is done at a reference begins inside of what belongs to it, and stops there or at the end
    of the line. -/
theorem Edit.At.bounds {cs : List Char} {r : Reference} {e : Edit} (h : e.At cs r)
    (hr : r.StandsIn cs) :
    r.extent.start ≤ e.offset ∧ e.extent.stop ≤ lineEnd cs r.extent.stop := by
  have hle := (lineEnd_spec cs r.extent.stop).1
  rcases h with h | ⟨hk, h1, h2⟩
  · obtain ⟨h1, h2⟩ := h.inside hr
    exact ⟨by omega, by omega⟩
  · have hext : r.extent = r.statement := by
      unfold Reference.extent
      rw [hk]
    rw [hext, h1, h2]
    exact ⟨Nat.le_refl _, Nat.le_refl _⟩

/-- A text that is put in at a reference is put into its specifier. -/
theorem Edit.At.within_of_isInsert {cs : List Char} {r : Reference} {e : Edit} (h : e.At cs r)
    (hr : r.StandsIn cs) (hi : e.isInsert = true) : e.Within r := by
  refine h.resolve_right fun ⟨hk, h1, h2⟩ => ?_
  have hext : r.extent = r.statement := by
    unfold Reference.extent
    rw [hk]
  have hin := hr.within
  have hss := hr.start_le_stop
  have hle := (lineEnd_spec cs r.statement.stop).1
  have hstop := Edit.extent_stop_of_isInsert hi
  rw [hext] at hin
  omega

/-- **What is done at one of two references is beside what is done at the other.** -/
theorem beside_of_apart {cs : List Char} {r s : Reference} {e f : Edit} (hr : r.StandsIn cs)
    (hs : s.StandsIn cs) (ha : r.Apart s) (he : e.At cs r) (hf : f.At cs s) : e.Beside f := by
  obtain ⟨he1, he2⟩ := he.bounds hr
  obtain ⟨hf1, hf2⟩ := hf.bounds hs
  have hr' := hr.within
  have hs' := hs.within
  have hrs := hr.start_le_stop
  have hss := hs.start_le_stop
  unfold Reference.Apart Span.overlaps at ha
  simp only [Bool.and_eq_false_iff, decide_eq_false_iff_not, Nat.not_lt] at ha
  refine ⟨?_, ?_⟩
  -- an edit reaches the end of its line at most, and no other reference begins before that
  · rcases ha with ha | ha
    · have := hr.lineEnd_le ha
      exact .inr (by omega)
    · have := hs.lineEnd_le ha
      exact .inl (by omega)
  · -- texts are put in only inside of what belongs to a reference
    rintro ⟨hei, hfi, heq⟩
    obtain ⟨he3, he4⟩ := (he.within_of_isInsert hr hei).inside hr
    obtain ⟨hf3, hf4⟩ := (hf.within_of_isInsert hs hfi).inside hs
    have he5 := e.offset_le_stop
    have hf5 := f.offset_le_stop
    omega

/-- Something lies between an edit of a specifier and what is done at another reference. -/
theorem away_of_apart {cs : List Char} {r s : Reference} {e f : Edit} (hr : r.StandsIn cs)
    (hs : s.StandsIn cs) (ha : r.Apart s) (he : e.Within r) (hf : f.At cs s) : e.Away f := by
  obtain ⟨he1, he2⟩ := he.inside hr
  obtain ⟨hf1, hf2⟩ := hf.bounds hs
  unfold Reference.Apart Span.overlaps at ha
  simp only [Bool.and_eq_false_iff, decide_eq_false_iff_not, Nat.not_lt] at ha
  rcases ha with ha | ha
  · have := hr.lineEnd_le ha
    exact .inr (by omega)
  · exact .inl (by omega)

/-- Something lies between an edit of a specifier and what is put in where no reference stands. -/
theorem away_of_clearAt {cs : List Char} {r : Reference} {e f : Edit} (hr : r.StandsIn cs)
    (hi : f.isInsert = true) (hc : r.ClearAt f.offset) (he : e.Within r) : e.Away f := by
  obtain ⟨h1, h2⟩ := he.inside hr
  have hstop := Edit.extent_stop_of_isInsert hi
  rcases hc with hc | hc
  · exact .inl (by omega)
  · exact .inr (by omega)

end ModuleMove
