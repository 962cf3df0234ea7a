import ModuleMove.Failure
import ModuleMove.Source.Span
import ModuleMove.Text.Bytes

/-!
# EDITS — changes of a text at a byte offset

An edit puts text in, takes text away, or does both at one place.  An edit that takes text away
names the text that it expects there, and fails where something else stands: it is stale.
-/

namespace ModuleMove

/-- What an edit does at its offset. -/
inductive Change where
  /-- Puts a text in. -/
  | insert (text : String)
  /-- Takes away the expected text. -/
  | remove (expected : String)
  /-- Puts a new text in place of the expected one. -/
  | replace (old new : String)
  deriving DecidableEq, Repr, Inhabited

/-- A change of a file at a byte offset. -/
structure Edit where
  /-- The file. -/
  target : Path
  /-- The offset into the text that the edit was made for. -/
  offset : Nat
  /-- What is done there. -/
  change : Change
  deriving DecidableEq, Repr, Inhabited

/-- The number of machine words, which are what offsets are counted in. -/
def wordCount : Nat := 0x10000000000000000

namespace Edit

/-! ## §1. What an edit takes and gives. -/

/-- The text that has to stand at the offset. -/
def expected (e : Edit) : String :=
  match e.change with
  | .insert _ => ""
  | .remove t => t
  | .replace t _ => t

/-- The text that stands there afterwards. -/
def written (e : Edit) : String :=
  match e.change with
  | .insert t => t
  | .remove _ => ""
  | .replace _ t => t

/-- Whether the edit only puts text in. -/
def isInsert (e : Edit) : Bool :=
  match e.change with
  | .insert _ => true
  | _ => false

/-- The bytes that the edit takes away.  Where they stop is a sum of machine words, which starts
    again from zero when it does not fit into one: such a span stops before it starts. -/
def span (e : Edit) : Span :=
  ⟨e.offset, (e.offset + byteLength e.expected.toList) % wordCount⟩

/-- The edit in words. -/
def describe (e : Edit) : String :=
  let place := e.target.text ++ "@" ++ toString e.offset ++ ": "
  match e.change with
  | .insert t => place ++ "insert " ++ quoted t
  | .remove t => place ++ "remove " ++ quoted t
  | .replace old new => place ++ quoted old ++ " -> " ++ quoted new

/-! ## §2. Making an edit. -/

/-- The characters after the edit has been made, unless it is stale.  No text has a byte at an
    offset that is not a machine word, so that here an edit whose span does not fit is stale. -/
def applyChars? (e : Edit) (cs : List Char) : Option (List Char) := do
  let (before, rest) ← partAtByte? e.offset cs
  let t := e.expected.toList
  if t.isPrefixOf rest then some (before ++ e.written.toList ++ rest.drop t.length) else none

/-- The failure of an edit that is stale: what stands at its offset, as many characters as were
    expected and at least one. -/
def stale (e : Edit) (cs : List Char) : Failure :=
  let found :=
    match partAtByte? e.offset cs with
    | some (_, rest) => rest.take (max 1 e.expected.length)
    | none => []
  .staleEdit e.target e.offset e.expected (String.ofList found)

/-- The text after the edit has been made. -/
def apply (e : Edit) (content : String) : Except Failure String :=
  match e.applyChars? content.toList with
  | some cs => .ok (String.ofList cs)
  | none => .error (e.stale content.toList)

end Edit

end ModuleMove
