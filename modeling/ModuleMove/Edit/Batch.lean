import ModuleMove.Edit.Basic

/-!
# BATCHES — several edits of one text, all made for the text as it was

The edits of a batch are made from the end of the text towards its beginning, so that none moves
the place of another.  At one offset, text is taken away before text is put in, and texts put in
stand in the order of the batch.
-/

namespace ModuleMove

/-! ## §1. Conflicts. -/

/-- Whether two edits of one text cannot both be made: the bytes that they take away overlap, or
    one puts text into the middle of what the other takes away. -/
def Edit.conflicts (a b : Edit) : Bool :=
  match a.isInsert, b.isInsert with
  | true, true => false
  | true, false => b.span.start < a.offset && a.offset < b.span.stop
  | false, true => a.span.start < b.offset && b.offset < a.span.stop
  | false, false => a.span.overlaps b.span

/-- The first two edits of a batch that are in conflict. -/
def firstConflict? : List Edit → Option (Edit × Edit)
  | [] => none
  | a :: es =>
    match es.find? a.conflicts with
    | some b => some (a, b)
    | none => firstConflict? es

/-! ## §2. The order in which edits are made. -/

/-- Whether edit `a`, number `i` of its batch, is made before edit `b`, number `j`. -/
def madeBefore (i : Nat) (a : Edit) (j : Nat) (b : Edit) : Bool :=
  if a.offset != b.offset then b.offset < a.offset
  else if a.isInsert != b.isInsert then b.isInsert
  else j ≤ i

/-- The edits of a batch in the order in which they are made. -/
def makingOrder (es : List Edit) : List Edit :=
  ((es.zipIdx).mergeSort fun a b => madeBefore a.2 a.1 b.2 b.1).map (·.1)

/-! ## §3. Making all edits of a batch. -/

/-- The text after the edits have been made one after the other. -/
def applyInTurn (content : String) : List Edit → Except Failure String
  | [] => .ok content
  | e :: es => do applyInTurn (← e.apply content) es

/-- The text after a batch of edits, together with the edits in words, in the order in which they
    were made. -/
def applyBatch (path : Path) (content : String) (es : List Edit) :
    Except Failure (String × List String) :=
  match firstConflict? es with
  | some (a, b) => .error (.overlappingEdits path (min a.offset b.offset) (max a.offset b.offset))
  | none => do
    let order := makingOrder es
    let updated ← applyInTurn content order
    pure (updated, order.map Edit.describe)

end ModuleMove
