import ModuleMove.Failure
import ModuleMove.Grammar.Tree
import ModuleMove.Source.Walk

/-!
# SCAN — from a source text to its references and names

A scan parses a text and walks its tree.  A text with errors is not walked: the scan fails at the
first of them.
-/

namespace ModuleMove

namespace Scan

/-- The language of a file. -/
def languageOf? (p : Path) : Option Language := p.extension? >>= Language.ofExtension?

/-- The failure of a file whose tree has errors. -/
def failureAt (path : Path) (t : SyntaxTree) : Failure :=
  match SyntaxNode.firstError? [t.root] with
  | some n =>
    let p := t.startOf n
    .parse path (p.row + 1) (p.column + 1) <|
      if n.missing then "missing \x60" ++ n.kind ++ "\x60" else "unexpected syntax"
  | none => .parse path 1 1 "unexpected syntax"

/-- What is known about a file with the given tree. -/
def ofTree (path : Path) (language : Language) (source : String) (t : SyntaxTree) : ScannedFile :=
  let s := Walk.run ⟨path, source.toList, t.startOf⟩ [(t.root, false)] .none
  ⟨path, language, s.references, s.declared, s.exportStatements⟩

end Scan

/-- Scans the text of a file with a parser. -/
def scanWith (parse : Parser) (path : Path) (source : String) : Except Failure ScannedFile :=
  match Scan.languageOf? path with
  | none => .error (.refused (.unsupportedFile path))
  | some language =>
    match parse language source with
    | none => .error (.parse path 0 0 "tree-sitter failed to parse")
    | some t =>
      if t.root.hasError then .error (Scan.failureAt path t)
      else .ok (Scan.ofTree path language source t)

/-- Scans the text of a file. -/
def scan (path : Path) (source : String) : Except Failure ScannedFile :=
  scanWith Grammar.parse path source

end ModuleMove
