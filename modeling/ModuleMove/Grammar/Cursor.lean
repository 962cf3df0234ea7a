import ModuleMove.Text.Bytes

/-!
# CURSORS — places in a source text

A cursor is a place in a text: the characters still to be read and the byte offset at which they
begin.  From one cursor another is reached by stepping over characters, and offsets count the bytes
of what has been stepped over.
-/

namespace ModuleMove.Grammar

/-- A place in a source text. -/
structure Cursor where
  /-- The byte offset of the first unread character. -/
  offset : Nat
  /-- The characters that are still to be read. -/
  rest : List Char
  deriving Repr, Inhabited

namespace Cursor

/-! ## §1. Stepping over characters. -/

/-- The place before the first character of a text. -/
def ofText (s : String) : Cursor := ⟨0, s.toList⟩

/-- Steps over `n` characters, or over all that are left. -/
def advance (n : Nat) (c : Cursor) : Cursor :=
  ⟨c.offset + byteLength (c.rest.take n), c.rest.drop n⟩

/-- Steps over all characters before the last ones, `rest`. -/
def upTo (c : Cursor) (rest : List Char) : Cursor := c.advance (c.rest.length - rest.length)

/-- Steps over the longest run of characters that satisfy `p`. -/
def dropWhile (p : Char → Bool) (c : Cursor) : Cursor :=
  go c.offset c.rest
where
  /-- The run that begins at byte `o`. -/
  go (o : Nat) : List Char → Cursor
    | [] => ⟨o, []⟩
    | x :: r => if p x then go (o + x.utf8Size) r else ⟨o, x :: r⟩

/-! ## §2. Places of one text. -/

/-- What is left to read at `d` ends what is left to read at `c`. -/
def LeadsTo (c d : Cursor) : Prop :=
  ∃ pre, c.rest = pre ++ d.rest ∧ d.offset = c.offset + byteLength pre

variable {c d e : Cursor}

theorem LeadsTo.refl (c : Cursor) : c.LeadsTo c := ⟨[], rfl, rfl⟩

theorem LeadsTo.trans (h : c.LeadsTo d) (h' : d.LeadsTo e) : c.LeadsTo e := by
  obtain ⟨a, ha, hd⟩ := h
  obtain ⟨b, hb, he⟩ := h'
  refine ⟨a ++ b, by rw [ha, hb, List.append_assoc], ?_⟩
  rw [he, hd, byteLength_append, Nat.add_assoc]

theorem LeadsTo.offset_le (h : c.LeadsTo d) : c.offset ≤ d.offset := by
  obtain ⟨a, -, hd⟩ := h
  omega

theorem leadsTo_cons (o : Nat) (x : Char) (r : List Char) :
    LeadsTo ⟨o, x :: r⟩ ⟨o + x.utf8Size, r⟩ := ⟨[x], rfl, rfl⟩

/-- The place behind a beginning of what is left to read. -/
theorem leadsTo_append (o : Nat) (a r : List Char) :
    LeadsTo ⟨o, a ++ r⟩ ⟨o + byteLength a, r⟩ := ⟨a, rfl, rfl⟩

theorem leadsTo_advance (n : Nat) (c : Cursor) : c.LeadsTo (c.advance n) :=
  ⟨c.rest.take n, (List.take_append_drop n c.rest).symm, rfl⟩

theorem leadsTo_upTo (c : Cursor) (rest : List Char) : c.LeadsTo (c.upTo rest) :=
  leadsTo_advance _ c

theorem leadsTo_dropWhile (p : Char → Bool) (c : Cursor) : c.LeadsTo (c.dropWhile p) := by
  suffices h : ∀ (r : List Char) (o : Nat), LeadsTo ⟨o, r⟩ (dropWhile.go p o r) from h _ _
  intro r
  induction r with
  | nil => exact fun o => .refl _
  | cons x r ih =>
    intro o
    simp only [dropWhile.go]
    split
    · exact (leadsTo_cons o x r).trans (ih _)
    · exact .refl _

/-- A place that is reached in a text parts it. -/
theorem exists_of_leadsTo {text : List Char} (h : LeadsTo ⟨0, text⟩ c) :
    ∃ a, text = a ++ c.rest ∧ byteLength a = c.offset := by
  obtain ⟨a, htext, ho⟩ := h
  exact ⟨a, htext, by rw [ho, Nat.zero_add]⟩

end Cursor

end ModuleMove.Grammar
