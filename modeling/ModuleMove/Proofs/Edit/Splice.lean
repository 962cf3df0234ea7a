import ModuleMove.Edit.Batch
import ModuleMove.Proofs.Text.Bytes

/-!
# SPLICES — what a batch of edits means, whatever the order in which it is made

A splice reads the original text from left to right.  At each byte it puts down what is inserted
there, then what replaces a stretch that begins there, then the character itself unless an edit
takes it away.  Every offset keeps its meaning in the original text, and no edit sees another.

Main statements:
  * `Edit.applyChars?_isSome_iff` — an edit can be made where its expected text stands.
  * `splicedFrom_append` — a splice of two texts in a row is made part by part.
  * `spliced_perm` — only the order among insertions at one byte matters.
-/

namespace ModuleMove

namespace Edit

/-! ## §1. Where an edit can be made. -/

/-- The expected text stands in the text at the offset of the edit. -/
def FitsIn (e : Edit) (cs : List Char) : Prop :=
  ∃ a b, cs = a ++ e.expected.toList ++ b ∧ byteLength a = e.offset

/-- The bytes of a text that the edit takes away. -/
def extent (e : Edit) : Span := ⟨e.offset, e.offset + byteLength e.expected.toList⟩

/-- The edit stops at a machine word. -/
def Bounded (e : Edit) : Prop := e.extent.stop < wordCount

/-- A machine can hold the edit: its offset is a word, and no text is longer than half of the words
    can count. -/
structure Holdable (e : Edit) : Prop where
  /-- The offset is a word. -/
  offset : e.offset < wordCount
  /-- The expected text can be held. -/
  expected : byteLength e.expected.toList < wordCount / 2

/-- The edit takes away the byte at `n`. -/
def Takes (e : Edit) (n : Nat) : Prop := e.extent.start ≤ n ∧ n < e.extent.stop

instance (e : Edit) (n : Nat) : Decidable (e.Takes n) :=
  inferInstanceAs (Decidable (_ ∧ _))

/-- The byte at `n` is in the span of the edit. -/
def Spans (e : Edit) (n : Nat) : Prop := e.span.start ≤ n ∧ n < e.span.stop

/-- Neither edit leaves the text of the other alone: one byte is in the spans of both, or one puts
    text in between two bytes of the span of the other. -/
def Clashes (a b : Edit) : Prop :=
  (∃ n, a.Spans n ∧ b.Spans n) ∨
    (a.isInsert ∧ b.span.start < a.offset ∧ a.offset < b.span.stop) ∨
    (b.isInsert ∧ a.span.start < b.offset ∧ b.offset < a.span.stop)

/-- An edit that takes text away names the text, and that text is not empty. -/
def Substantial (e : Edit) : Prop := e.isInsert = false → e.expected ≠ ""

theorem expected_of_isInsert {e : Edit} (h : e.isInsert = true) : e.expected = "" := by
  obtain ⟨t, o, change⟩ := e
  cases change with
  | insert text => rfl
  | remove text => simp [isInsert] at h
  | replace old new => simp [isInsert] at h

theorem extent_stop (e : Edit) : e.extent.stop = e.offset + byteLength e.expected.toList := rfl

theorem extent_stop_of_isInsert {e : Edit} (h : e.isInsert = true) :
    e.extent.stop = e.offset := by
  rw [extent_stop, expected_of_isInsert h]
  rfl

theorem offset_lt_stop {e : Edit} (hs : e.Substantial) (h : e.isInsert = false) :
    e.offset < e.extent.stop := by
  have hne : e.expected.toList ≠ [] := fun hn => hs h (String.toList_eq_nil_iff.1 hn)
  have := byteLength_pos hne
  rw [extent_stop]
  omega

theorem offset_le_stop (e : Edit) : e.offset ≤ e.extent.stop := Nat.le_add_right _ _

theorem span_start (e : Edit) : e.span.start = e.offset := rfl

/-- Where an edit stops at a word, the machine counts its bytes exactly. -/
theorem Bounded.span_eq {e : Edit} (h : e.Bounded) : e.span = e.extent := by
  unfold span
  rw [← extent_stop, Nat.mod_eq_of_lt h]
  rfl

/-- **Where it does not, the span stops before it starts**, further than any text is long. -/
theorem Holdable.stop_lt_offset {e : Edit} (h : e.Holdable) (hb : ¬ e.Bounded) :
    e.span.stop + wordCount / 2 < e.offset := by
  have hoffset := h.offset
  have hlen := h.expected
  have hwrap : wordCount ≤ e.offset + byteLength e.expected.toList := Nat.not_lt.1 hb
  show (e.offset + byteLength e.expected.toList) % wordCount + wordCount / 2 < e.offset
  unfold wordCount at *
  omega

theorem not_takes_of_isInsert {e : Edit} (h : e.isInsert = true) (n : Nat) : ¬ e.Takes n := by
  rintro ⟨h1, h2⟩
  rw [extent_stop_of_isInsert h] at h2
  exact absurd h2 (Nat.not_lt.2 h1)

/-- Making an edit cuts the text before and after the expected one. -/
theorem applyChars?_eq_some_iff {e : Edit} {cs ds : List Char} :
    e.applyChars? cs = some ds ↔
      ∃ a b, cs = a ++ e.expected.toList ++ b ∧ byteLength a = e.offset ∧
        ds = a ++ e.written.toList ++ b := by
  constructor
  · intro h
    unfold applyChars? at h
    simp only [Option.bind_eq_bind, Option.bind_eq_some_iff] at h
    obtain ⟨⟨a, rest⟩, hp, h⟩ := h
    obtain ⟨rfl, ha⟩ := partAtByte?_eq_some hp
    simp only at h
    split at h
    · rename_i hpre
      obtain ⟨b, rfl⟩ := List.isPrefixOf_iff_prefix.1 hpre
      simp only [Option.some.injEq] at h
      refine ⟨a, b, by simp, ha, ?_⟩
      rw [← h, List.drop_left]
    · simp at h
  · rintro ⟨a, b, rfl, ha, rfl⟩
    unfold applyChars?
    rw [List.append_assoc, ← ha, partAtByte?_append]
    simp

theorem applyChars?_isSome_iff {e : Edit} {cs : List Char} :
    (e.applyChars? cs).isSome ↔ e.FitsIn cs := by
  rw [Option.isSome_iff_exists]
  constructor
  · rintro ⟨ds, h⟩
    obtain ⟨a, b, hcs, ha, -⟩ := applyChars?_eq_some_iff.1 h
    exact ⟨a, b, hcs, ha⟩
  · rintro ⟨a, b, hcs, ha⟩
    exact ⟨_, applyChars?_eq_some_iff.2 ⟨a, b, hcs, ha, rfl⟩⟩

theorem FitsIn.stop_le {e : Edit} {cs : List Char} (h : e.FitsIn cs) :
    e.extent.stop ≤ byteLength cs := by
  obtain ⟨a, b, rfl, ha⟩ := h
  rw [extent_stop]
  simp only [byteLength_append]
  omega

/-- The end of an edit that fits a text is a machine word, as long as the length of the text is. -/
theorem FitsIn.bounded {e : Edit} {cs : List Char} (h : e.FitsIn cs)
    (hlen : byteLength cs < wordCount) : e.Bounded :=
  Nat.lt_of_le_of_lt h.stop_le hlen

theorem FitsIn.append {e : Edit} {cs : List Char} (h : e.FitsIn cs) (ds : List Char) :
    e.FitsIn (cs ++ ds) := by
  obtain ⟨a, b, rfl, ha⟩ := h
  exact ⟨a, b ++ ds, by simp, ha⟩

/-- Whether an edit fits is decided by the text up to where the edit stops. -/
theorem FitsIn.of_append {e : Edit} {cs ds : List Char} (h : e.FitsIn (cs ++ ds))
    (hle : e.extent.stop ≤ byteLength cs) : e.FitsIn cs := by
  obtain ⟨a, b, hab, ha⟩ := h
  have hlen : byteLength (a ++ e.expected.toList) = e.extent.stop := by
    rw [byteLength_append, ha]
    rfl
  obtain ⟨x, hx, -⟩ := append_eq_append_of_byteLength_le hab.symm (by omega)
  exact ⟨a, x, hx, ha⟩

/-! ## §2. Conflicts. -/

theorem conflicts_comm (a b : Edit) : a.conflicts b = b.conflicts a := by
  unfold conflicts
  cases a.isInsert <;> cases b.isInsert <;> simp [Span.overlaps_comm]

/-- Spans overlap only if the machine counts both of them exactly. -/
theorem Holdable.bounded_of_overlaps {a b : Edit} (ha : a.Holdable) (hb : b.Holdable)
    (h : a.span.overlaps b.span = true) : a.Bounded := by
  by_contra hwrap
  have hstop := ha.stop_lt_offset hwrap
  have hle : b.span.stop ≤ b.offset + byteLength b.expected.toList := Nat.mod_le _ _
  have hlen := hb.expected
  unfold Span.overlaps at h
  rw [Bool.and_eq_true, decide_eq_true_eq, decide_eq_true_eq, span_start, span_start] at h
  -- what overlaps such a span would reach over more than half of the words
  omega

theorem span_stop_le_of_isInsert {e : Edit} (h : e.isInsert = true) : e.span.stop ≤ e.offset := by
  show (e.offset + byteLength e.expected.toList) % wordCount ≤ e.offset
  rw [expected_of_isInsert h]
  exact Nat.mod_le _ _

theorem not_spans_of_isInsert {e : Edit} (h : e.isInsert = true) (n : Nat) : ¬ e.Spans n := by
  rintro ⟨h1, h2⟩
  have hle := span_stop_le_of_isInsert h
  exact absurd (Nat.lt_of_lt_of_le h2 hle) (Nat.not_lt.2 h1)

/-- Two edits that take something away are in conflict when one byte is in the spans of both, and
    an insertion when it lies between two bytes of the span of the other. -/
theorem conflicts_iff_clashes {a b : Edit} (ha : a.Substantial) (hb : b.Substantial)
    (hma : a.Holdable) (hmb : b.Holdable) : a.conflicts b = true ↔ a.Clashes b := by
  unfold conflicts Clashes
  cases hai : a.isInsert with
  | true =>
    have hna := not_spans_of_isInsert hai
    cases hbi : b.isInsert with
    | true =>
      have h1 := span_stop_le_of_isInsert hai
      have h2 := span_stop_le_of_isInsert hbi
      simp only [hna, false_and, exists_false, false_or, true_and, Bool.false_eq_true, false_iff,
        span_start]
      omega
    | false => simp [hna]
  | false =>
    cases hbi : b.isInsert with
    | true => simp [not_spans_of_isInsert hbi]
    | false =>
      simp only [Bool.false_eq_true, false_and, or_false]
      constructor
      · intro h
        have hspan := (hma.bounded_of_overlaps hmb h).span_eq
        have hspan' := (hmb.bounded_of_overlaps hma (by rwa [Span.overlaps_comm])).span_eq
        have h1 := offset_lt_stop ha hai
        have h2 := offset_lt_stop hb hbi
        unfold Spans
        rw [hspan, hspan'] at h ⊢
        simp only [Span.overlaps, Bool.and_eq_true, decide_eq_true_eq] at h
        -- the later of the two beginnings is a byte of both
        refine ⟨max a.offset b.offset, ⟨?_, ?_⟩, ⟨?_, ?_⟩⟩
        · exact Nat.le_max_left _ _
        · exact Nat.max_lt.2 ⟨h1, h.2⟩
        · exact Nat.le_max_right _ _
        · exact Nat.max_lt.2 ⟨h.1, h2⟩
      · rintro ⟨n, ⟨h3, h4⟩, ⟨h5, h6⟩⟩
        simp only [Span.overlaps, Bool.and_eq_true, decide_eq_true_eq]
        exact ⟨by omega, by omega⟩

/-- For spans that are exact, conflicts are what they are between the bytes of a text. -/
theorem conflicts_eq {a b : Edit} (ha : a.Bounded) (hb : b.Bounded) : a.conflicts b =
    match a.isInsert, b.isInsert with
    | true, true => false
    | true, false => b.offset < a.offset && a.offset < b.extent.stop
    | false, true => a.offset < b.offset && b.offset < a.extent.stop
    | false, false => a.offset < b.extent.stop && b.offset < a.extent.stop := by
  unfold conflicts
  rw [ha.span_eq, hb.span_eq]
  rfl

end Edit

/-! ## §3. Splices. -/

/-- The insertions of a list at byte `o`, in the order of the list. -/
def insertionsAt (es : List Edit) (o : Nat) : List Edit :=
  es.filter fun e => e.isInsert && e.offset == o

/-- What the insertions of a list put in at byte `o`. -/
def insertedAt (es : List Edit) (o : Nat) : List Char :=
  (insertionsAt es o).flatMap (·.written.toList)

/-- The edits of a list that take text away from byte `o` on. -/
def replacementsAt (es : List Edit) (o : Nat) : List Edit :=
  es.filter fun e => !e.isInsert && e.offset == o

/-- What replaces stretches that begin at byte `o`. -/
def replacedAt (es : List Edit) (o : Nat) : List Char :=
  (replacementsAt es o).flatMap (·.written.toList)

/-- Whether one of the edits takes away the byte at `o`. -/
def takenAt (es : List Edit) (o : Nat) : Bool := es.any fun e => decide (e.Takes o)

/-- The splice of a text whose first character is at byte `o` of the original, without what is
    inserted behind its last character. -/
def splicedFrom (es : List Edit) : Nat → List Char → List Char
  | _, [] => []
  | o, c :: r =>
    insertedAt es o ++ replacedAt es o ++ (if takenAt es o then [] else [c]) ++
      splicedFrom es (o + c.utf8Size) r

/-- The splice of the end of a text that begins at byte `o` of the original. -/
def splicedEnd (es : List Edit) (o : Nat) (cs : List Char) : List Char :=
  splicedFrom es o cs ++ insertedAt es (o + byteLength cs)

/-- The splice of a whole text. -/
def spliced (es : List Edit) (cs : List Char) : List Char := splicedEnd es 0 cs

/-- Texts in a row are spliced part by part. -/
theorem splicedFrom_append (es : List Edit) (o : Nat) (a b : List Char) :
    splicedFrom es o (a ++ b) = splicedFrom es o a ++ splicedFrom es (o + byteLength a) b := by
  induction a generalizing o with
  | nil => simp [splicedFrom]
  | cons c r ih =>
    simp only [List.cons_append, splicedFrom, ih, byteLength_cons, List.append_assoc]
    rw [Nat.add_assoc]

/-- The beginning of a text is spliced without what is inserted behind it. -/
theorem splicedEnd_append (es : List Edit) (o : Nat) (a b : List Char) :
    splicedEnd es o (a ++ b) = splicedFrom es o a ++ splicedEnd es (o + byteLength a) b := by
  unfold splicedEnd
  rw [splicedFrom_append, byteLength_append, Nat.add_assoc, List.append_assoc]

/-- What the edits of a list do at one byte. -/
def actionAt (es : List Edit) (o : Nat) : List Char × List Char × Bool :=
  (insertedAt es o, replacedAt es o, takenAt es o)

/-- Where edits do the same, so do their splices. -/
theorem splicedFrom_congr {es fs : List Edit} {o : Nat} {cs : List Char}
    (h : ∀ n, o ≤ n → n < o + byteLength cs → actionAt es n = actionAt fs n) :
    splicedFrom es o cs = splicedFrom fs o cs := by
  induction cs generalizing o with
  | nil => rfl
  | cons c r ih =>
    have hc : 0 < c.utf8Size := c.utf8Size_pos
    rw [byteLength_cons] at h
    have ho := h o (by omega) (by omega)
    simp only [actionAt, Prod.mk.injEq] at ho
    simp only [splicedFrom, ho.1, ho.2.1, ho.2.2]
    rw [ih fun n hn hn' => h n (by omega) (by omega)]

theorem splicedEnd_congr {es fs : List Edit} {o : Nat} {cs : List Char}
    (h : ∀ n, o ≤ n → actionAt es n = actionAt fs n) :
    splicedEnd es o cs = splicedEnd fs o cs := by
  have he := h (o + byteLength cs) (by omega)
  simp only [actionAt, Prod.mk.injEq] at he
  unfold splicedEnd
  rw [splicedFrom_congr fun n hn _ => h n hn, he.1]

theorem splicedFrom_nil (o : Nat) (cs : List Char) : splicedFrom [] o cs = cs := by
  induction cs generalizing o with
  | nil => rfl
  | cons c r ih =>
    simp only [splicedFrom, ih]
    rfl

/-! ## §4. One edit more. -/

/-- An edit does nothing outside of the bytes from its offset to where it stops. -/
theorem actionAt_cons_of_outside {e : Edit} {es : List Edit} {n : Nat}
    (ho : e.offset ≠ n) (ht : ¬ e.Takes n) : actionAt (e :: es) n = actionAt es n := by
  simp [actionAt, insertedAt, insertionsAt, replacedAt, replacementsAt, takenAt, ho, ht]

/-- Edits do nothing before the first of their offsets. -/
theorem actionAt_of_lt {es : List Edit} {n : Nat} (h : ∀ e ∈ es, n < e.offset) :
    actionAt es n = actionAt [] n := by
  induction es with
  | nil => rfl
  | cons e es ih =>
    have he := h e (List.mem_cons_self ..)
    have ht : ¬ e.Takes n := fun ⟨h1, _⟩ => absurd h1 (by show ¬ e.offset ≤ n; omega)
    rw [actionAt_cons_of_outside (by omega) ht]
    exact ih fun f hf => h f (List.mem_cons_of_mem e hf)

/-- The text before the first of the offsets stays as it is. -/
theorem splicedEnd_append_of_le {es : List Edit} {o : Nat} {a : List Char} (b : List Char)
    (h : ∀ e ∈ es, o + byteLength a ≤ e.offset) :
    splicedEnd es o (a ++ b) = a ++ splicedEnd es (o + byteLength a) b := by
  rw [splicedEnd_append]
  congr 1
  have hnone : splicedFrom es o a = splicedFrom [] o a :=
    splicedFrom_congr fun n _ hn => actionAt_of_lt fun e he => Nat.lt_of_lt_of_le hn (h e he)
  rw [hnone, splicedFrom_nil]

/-- An insertion in front of the others puts its text before everything else. -/
theorem splicedEnd_cons_insert {e : Edit} (es : List Edit) (cs : List Char)
    (hi : e.isInsert = true) :
    splicedEnd (e :: es) e.offset cs = e.written.toList ++ splicedEnd es e.offset cs := by
  have hins : insertedAt (e :: es) e.offset = e.written.toList ++ insertedAt es e.offset := by
    simp [insertedAt, insertionsAt, hi]
  cases cs with
  | nil =>
    show [] ++ insertedAt _ (e.offset + 0) = _ ++ ([] ++ insertedAt _ (e.offset + 0))
    rw [Nat.add_zero, hins]
    simp
  | cons c r =>
    have hc : 0 < c.utf8Size := c.utf8Size_pos
    have hrep : replacedAt (e :: es) e.offset = replacedAt es e.offset := by
      simp [replacedAt, replacementsAt, hi]
    have htake : takenAt (e :: es) e.offset = takenAt es e.offset := by
      simp [takenAt, Edit.not_takes_of_isInsert hi]
    -- behind its own byte, an insertion does nothing
    have hrest : splicedEnd (e :: es) (e.offset + c.utf8Size) r
        = splicedEnd es (e.offset + c.utf8Size) r :=
      splicedEnd_congr fun n hn =>
        actionAt_cons_of_outside (by omega) (Edit.not_takes_of_isInsert hi n)
    have hsplit : ∀ fs : List Edit, splicedEnd fs e.offset (c :: r)
        = insertedAt fs e.offset ++ replacedAt fs e.offset ++
            (if takenAt fs e.offset then [] else [c]) ++
          splicedEnd fs (e.offset + c.utf8Size) r := by
      intro fs
      have := splicedEnd_append fs e.offset [c] r
      simpa [splicedFrom] using this
    rw [hsplit, hsplit, hins, hrep, htake, hrest]
    simp [List.append_assoc]

/-- Bytes that an edit takes away after its first one leave nothing, if no other edit is about
    them. -/
theorem splicedFrom_cons_taken {e : Edit} {es : List Edit} {o : Nat} {cs : List Char}
    (hlo : e.offset < o) (hhi : o + byteLength cs ≤ e.extent.stop)
    (hes : ∀ f ∈ es, e.extent.stop ≤ f.offset) : splicedFrom (e :: es) o cs = [] := by
  induction cs generalizing o with
  | nil => rfl
  | cons c r ih =>
    have hc : 0 < c.utf8Size := c.utf8Size_pos
    rw [byteLength_cons] at hhi
    -- the other edits begin further on
    have hno : actionAt es o = actionAt [] o := actionAt_of_lt fun f hf =>
      Nat.lt_of_lt_of_le (by omega) (hes f hf)
    simp only [actionAt, Prod.mk.injEq] at hno
    -- and the edit itself writes where it begins, which is not here
    have hne : (e.offset == o) = false := by simp; omega
    have htake : takenAt (e :: es) o = true := by
      have : e.Takes o := ⟨by show e.offset ≤ o; omega, by omega⟩
      simp [takenAt, this]
    have hins : insertedAt (e :: es) o = [] := by
      have : insertedAt (e :: es) o = insertedAt es o := by
        simp [insertedAt, insertionsAt, hne]
      rw [this, hno.1]
      rfl
    have hrep : replacedAt (e :: es) o = [] := by
      have : replacedAt (e :: es) o = replacedAt es o := by
        simp [replacedAt, replacementsAt, hne]
      rw [this, hno.2.1]
      rfl
    simp only [splicedFrom, hins, hrep, htake]
    rw [ih (by omega) (by omega)]
    rfl

/-- An edit that takes text away in front of the others puts its own text in place of it. -/
theorem splicedEnd_cons_take {e : Edit} {es : List Edit} (b : List Char)
    (hi : e.isInsert = false) (hs : e.Substantial) (hes : ∀ f ∈ es, e.extent.stop ≤ f.offset) :
    splicedEnd (e :: es) e.offset (e.expected.toList ++ b)
      = e.written.toList ++ splicedEnd es e.extent.stop b := by
  have hstop : e.extent.stop = e.offset + byteLength e.expected.toList := rfl
  have hlt := Edit.offset_lt_stop hs hi
  rw [splicedEnd_append, ← hstop]
  congr 1
  · cases hx : e.expected.toList with
    | nil => rw [hstop, hx, byteLength_nil] at hlt; omega
    | cons c r =>
      have hc : 0 < c.utf8Size := c.utf8Size_pos
      rw [hx, byteLength_cons] at hstop
      -- the other edits begin behind the bytes that are taken away
      have hno : actionAt es e.offset = actionAt [] e.offset := actionAt_of_lt fun f hf =>
        Nat.lt_of_lt_of_le hlt (hes f hf)
      simp only [actionAt, Prod.mk.injEq] at hno
      have hins : insertedAt (e :: es) e.offset = [] := by
        have : insertedAt (e :: es) e.offset = insertedAt es e.offset := by
          simp [insertedAt, insertionsAt, hi]
        rw [this, hno.1]
        rfl
      have hrep : replacedAt (e :: es) e.offset = e.written.toList := by
        have : replacedAt (e :: es) e.offset
            = e.written.toList ++ replacedAt es e.offset := by simp [replacedAt, replacementsAt, hi]
        rw [this, hno.2.1]
        simp [replacedAt, replacementsAt]
      have htake : takenAt (e :: es) e.offset = true := by
        have : e.Takes e.offset := ⟨Nat.le_refl _, hlt⟩
        simp [takenAt, this]
      simp only [splicedFrom, hins, hrep, htake]
      rw [splicedFrom_cons_taken (by omega) (by omega) hes]
      simp
  · -- behind its last byte the edit does nothing
    apply splicedEnd_congr
    intro n hn
    exact actionAt_cons_of_outside (by omega) fun ⟨_, h⟩ => by omega

end ModuleMove
