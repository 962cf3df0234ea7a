import ModuleMove.Grammar.Lexeme

/-!
# RULES — what the readers of the grammar share

A text is read by readers that call each other: an expression holds statements in the body of
a function, a statement holds expressions, and both hold types and patterns.  The record
`Rules` gives each reader the others.  It is filled in last, by reading to a bounded depth.
-/

namespace ModuleMove.Grammar

open Cursor Reader

/-! ## §1. Readers for brackets and lists. -/

/-- Reads `{`. -/
def leftBrace : Reader Unit := mark "\x7b"

/-- Reads `}`. -/
def rightBrace : Reader Unit := mark "\x7d"

/-- Reads with `p` if that works. -/
def maybe {α : Type} (p : Reader α) : Reader Unit := do
  let _ ← optional p

/-- Reads with `p` as often as it works. -/
def often {α : Type} (p : Reader α) : Reader Unit := do
  let _ ← many p

/-- Reads items with commas between them; any item may be missing. -/
def sparse {α : Type} (item : Reader α) : Reader (List α) := do
  let first ← optional item
  let more ← many do
    mark ","
    optional item
  pure ((first :: more).filterMap id)

/-- Reads one or more items with commas between them. -/
def commaSeparated {α : Type} (item : Reader α) : Reader (List α) := do
  let first ← item
  let more ← many do
    mark ","
    item
  pure (first :: more)

/-- Reads one or more items with commas between them and perhaps one more comma. -/
def commaTerminated (item : Reader Unit) : Reader Unit := do
  let _ ← commaSeparated item
  maybe (mark ",")

/-! ## §2. Expressions as their surroundings see them. -/

/-- What an expression looks like from outside. -/
inductive Shape where
  /-- A single name. -/
  | name
  /-- A member of something, which can be assigned to. -/
  | place
  /-- An expression in parentheses. -/
  | grouped
  /-- An object or array literal: whether it can be read as a value, and as a pattern. -/
  | collection (value target : Bool)
  /-- An assignment, and whether its left side can be read as a pattern. -/
  | assigned (target : Bool)
  /-- Something that takes in all that follows: a function whose body is an expression, or a
      change of a place. -/
  | closed
  /-- Anything else. -/
  | value
  deriving DecidableEq, Repr

namespace Shape

/-- Whether it has a value: a pattern with defaults has none. -/
def isValue : Shape → Bool
  | collection v _ => v
  | _ => true

/-- Whether it can stand on the left of `=`. -/
def isTarget : Shape → Bool
  | name => true
  | place => true
  | grouped => true
  | collection _ t => t
  | _ => false

/-- Whether it can stand on the left of `+=` and the like. -/
def isPlace : Shape → Bool
  | name => true
  | place => true
  | grouped => true
  | _ => false

/-- Whether members, arguments and templates can follow it directly. -/
def isOpen : Shape → Bool
  | assigned _ => false
  | closed => false
  | s => s.isValue

/-- Whether it can be an element of a pattern. -/
def isPatternElement : Shape → Bool
  | name => true
  | place => true
  | collection _ t => t
  | assigned t => t
  | _ => false

end Shape

/-! ## §3. The recursive readers. -/

/-- Facts about the place of an expression. -/
structure Context where
  /-- A line break right after the expression may end a statement. -/
  ends : Bool
  /-- The word `in` may be an operator. -/
  inOperator : Bool
  /-- The parameters of an arrow function may be followed by a type. -/
  returnType : Bool
  deriving Repr

namespace Context

/-- An expression between brackets of any kind. -/
def inner : Context := ⟨false, true, true⟩

/-- An expression at the end of a statement. -/
def last : Context := ⟨true, true, true⟩

end Context

/-- The readers that call each other at every depth of a text, for one language. -/
structure Rules where
  /-- The language. -/
  language : Language
  /-- Reads an expression: operators, operands and all. -/
  expression : Context → Reader Shape
  /-- Reads an expression without binary operators. -/
  operand : Context → Reader Shape
  /-- Reads a type. -/
  type : Reader Unit
  /-- Reads the target of a parameter or of an element of a pattern. -/
  pattern : Reader Unit
  /-- Reads a statement. -/
  statement : Reader Unit
  /-- Reads a markup element. -/
  element : Reader Unit

namespace Rules

/-- Readers that are stuck everywhere. -/
def nowhere (language : Language) : Rules where
  language := language
  expression _ := stuck
  operand _ := stuck
  type := stuck
  pattern := stuck
  statement := stuck
  element := stuck

variable (g : Rules)

/-- Reads an expression that has a value. -/
def value (x : Context) : Reader Unit := do
  let s ← g.expression x
  require s.isValue

/-- Reads one or more values with commas between them. -/
def sequence (x : Context) : Reader Unit :=
  grownOnce (g.value x) fun _ _ => [
    .node none "sequence_expression" do
      mark ","
      let _ ← commaSeparated (g.value x)]

/-- Reads something only where types are part of the language. -/
def whenTyped {α : Type} (p : Reader α) : Reader α := if g.language.typed then p else stuck

end Rules

/-! ## §4. Line breaks. -/

/-- Whether a line break right here ends the statement. -/
def breaksHere (language : Language) (e : Ending) (c : Cursor) : Bool :=
  (lineEnd? language e c).isSome

/-- Whether a line break right here ends the statement. -/
def brokenOff (language : Language) (e : Ending) : Reader Bool := look (breaksHere language e)

/-- Goes to where a statement ends: behind a `;`, or at a line break that ends it. -/
def terminator (language : Language) (e : Ending) : Reader Unit :=
  .step (fun c =>
      match lineEnd? language e c with
      | some d => some ((), d)
      | none =>
        match c.pastComments.rest with
        | ';' :: _ => some ((), c.pastComments.advance 1)
        | _ => none)
    fun c _ n h => by
      split at h
      · rename_i d hd
        cases h
        exact leadsTo_lineEnd? hd
      · split at h
        · cases h
          exact (leadsTo_pastComments c).trans (leadsTo_advance 1 _)
        · cases h

/-- Goes to a line break that may, but need not, end a construct. -/
def lineBreak (language : Language) (e : Ending) : Reader Unit :=
  .skip (fun c => (lineEnd? language e c).getD c) fun c => by
    cases h : lineEnd? language e c with
    | none => exact .refl c
    | some d => exact leadsTo_lineEnd? h

end ModuleMove.Grammar
