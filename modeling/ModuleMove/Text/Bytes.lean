/-!
# BYTES — byte offsets into a text

Offsets count the bytes of a text's UTF-8 form.  Not every offset is good: a text can be parted
only between two of its characters.
-/

namespace ModuleMove

/-- The number of bytes of some characters. -/
def byteLength (cs : List Char) : Nat := cs.foldr (fun c n => c.utf8Size + n) 0

@[simp] theorem byteLength_nil : byteLength [] = 0 := rfl

@[simp] theorem byteLength_cons (c : Char) (cs : List Char) :
    byteLength (c :: cs) = c.utf8Size + byteLength cs := rfl

@[simp] theorem byteLength_append (cs ds : List Char) :
    byteLength (cs ++ ds) = byteLength cs + byteLength ds := by
  induction cs with
  | nil => simp
  | cons c cs ih => simp [ih, Nat.add_assoc]

/-- The characters before byte `n` and those from there on, if a character begins or the text
    ends at that byte. -/
def partAtByte? : Nat → List Char → Option (List Char × List Char)
  | 0, cs => some ([], cs)
  | n + 1, c :: r =>
    if n + 1 < c.utf8Size then none
    else (partAtByte? (n + 1 - c.utf8Size) r).map fun p => (c :: p.1, p.2)
  | _ + 1, [] => none

/-- The two parts make up the text, and the first has `n` bytes. -/
theorem partAtByte?_eq_some {n : Nat} {cs a b : List Char} (h : partAtByte? n cs = some (a, b)) :
    cs = a ++ b ∧ byteLength a = n := by
  induction cs generalizing n a b with
  | nil =>
    cases n with
    | zero =>
      simp only [partAtByte?, Option.some.injEq, Prod.mk.injEq] at h
      obtain ⟨rfl, rfl⟩ := h
      simp
    | succ n => simp [partAtByte?] at h
  | cons c r ih =>
    cases n with
    | zero =>
      simp only [partAtByte?, Option.some.injEq, Prod.mk.injEq] at h
      obtain ⟨rfl, rfl⟩ := h
      simp
    | succ n =>
      simp only [partAtByte?] at h
      split at h
      · simp at h
      · obtain ⟨⟨a', b'⟩, hp, he⟩ := Option.map_eq_some_iff.1 h
        simp only [Prod.mk.injEq] at he
        obtain ⟨rfl, rfl⟩ := he
        obtain ⟨rfl, hl⟩ := ih hp
        refine ⟨rfl, ?_⟩
        simp only [byteLength_cons, hl]
        omega

/-- A text can be parted after any of its beginnings. -/
theorem partAtByte?_append (a b : List Char) :
    partAtByte? (byteLength a) (a ++ b) = some (a, b) := by
  induction a with
  | nil => cases b <;> simp [partAtByte?]
  | cons c a ih =>
    have hc : 0 < c.utf8Size := c.utf8Size_pos
    obtain ⟨k, hk⟩ : ∃ k, byteLength (c :: a) = k + 1 :=
      ⟨byteLength (c :: a) - 1, by simp only [byteLength_cons]; omega⟩
    rw [hk, List.cons_append, partAtByte?]
    simp only [byteLength_cons] at hk
    rw [if_neg (by omega)]
    have : k + 1 - c.utf8Size = byteLength a := by omega
    rw [this, ih]
    rfl

/-- The characters of a text from byte `a` on, if a character begins there. -/
def fromByte? (text : List Char) (a : Nat) : Option (List Char) :=
  (partAtByte? a text).map (·.2)

/-- The characters of a text from byte `a` up to byte `b`, if characters begin there. -/
def betweenBytes? (text : List Char) (a b : Nat) : Option (List Char) := do
  let rest ← fromByte? text a
  if b < a then none else (partAtByte? (b - a) rest).map (·.1)

end ModuleMove
