import ModuleMove.Source.Syntax

/-!
# STATEMENTS IN SEQUENCE — what can be relied on when texts are cut and joined

In the grammars of the languages a file is one statement after the other, behind a line that may
name an interpreter (the rule `program`).  A new line with the word `export` ends what stands
before it, and so does a semicolon.  A text can therefore be cut behind an export statement that
stands directly in the file, and two texts can be joined where one of the two ends.  What the
nodes say is then the same as before.  Where they stand is not, and with a comment at such a place
it is up to the parser which node it goes to.

Main definitions:
  * `SyntaxNode.phrase` — what a node says, wherever it stands.
  * `Parser.Sequential` — how texts are read that are cut or joined.
-/

namespace ModuleMove

/-! ## §1. What nodes say. -/

/-- What a node says: of which kind it is, as what it stands in another one, its words if it has
    words of its own, and what is said inside. -/
inductive Phrase where
  | mk (kind : String) (field : Option String) (named : Bool) (words : String)
      (parts : List Phrase)

namespace SyntaxNode

/-- Whether the node is a comment. -/
def isComment (n : SyntaxNode) : Bool :=
  (n.kind == "comment" || n.kind == "html_comment") && n.field.isNone && n.children.isEmpty

/-- Whether all counts that stands directly inside of a node of the kind, comments too. -/
def isStrict (kind : String) : Bool :=
  kind == "arguments" || kind == "template_string" || Construct.ofName kind == .namespaceExport ||
    Construct.ofName kind == .exportSpecifier

/-- The words of a node.  One with others inside has none of its own, unless it is in quotes or
    stands where all counts. -/
def wordsIn (text : List Char) (strict : Bool) (n : SyntaxNode) : String :=
  if strict || n.children.isEmpty || n.construct == .stringLiteral then n.textIn text else ""

mutual

/-- What a node says. -/
def phrase (text : List Char) (strict : Bool) : SyntaxNode → Phrase
  | ⟨kind, field, named, missing, span, cs⟩ =>
    .mk kind field named (wordsIn text strict ⟨kind, field, named, missing, span, cs⟩)
      (phrases text (isStrict kind) cs)

/-- What the nodes say one after the other, without comments. -/
def phrases (text : List Char) (strict : Bool) : List SyntaxNode → List Phrase
  | [] => []
  | n :: ns =>
    if !strict && n.isComment then phrases text strict ns
    else n.phrase text strict :: phrases text strict ns

end

end SyntaxNode

/-- What is said directly in the file. -/
def SyntaxTree.phrases (t : SyntaxTree) (text : List Char) : List Phrase :=
  SyntaxNode.phrases text false t.root.children

/-! ## §2. Lines that export a module. -/

/-- The line that exports all names of the module that a specifier names. -/
@[irreducible] def wildcardLine (q : Char) (specifier : String) : List Char :=
  "export * from ".toList ++ q :: (specifier.toList ++ [q, ';'])

/-- Characters that stand between quotes just as they are. -/
def Quotable (q : Char) (text : List Char) : Prop :=
  ∀ y ∈ text, y ≠ q ∧ y ≠ '\\' ∧ y ≠ '\n' ∧ y ≠ '\r' ∧ y ≠ '\x00'

end ModuleMove
