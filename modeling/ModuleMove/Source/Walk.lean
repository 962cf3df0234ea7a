import ModuleMove.Source.Reference
import ModuleMove.Source.Syntax

/-!
# THE WALK — from a syntax tree to references and names

The tree of a text is walked once, each node before those inside of it.  Every import and export
statement and every loading call at any depth gives a reference.  Names and export statements
count at the top level only: directly in the file, or directly in an export statement there.  A
walk keeps the nodes still to be visited on a stack.
-/

namespace ModuleMove

/-- A text that is being walked. -/
structure Walk where
  /-- The file. -/
  path : Path
  /-- Its text. -/
  text : List Char
  /-- The point at which a node of its tree begins. -/
  startOf : SyntaxNode → Point

/-- What has been found so far. -/
structure Findings where
  /-- The references. -/
  references : List Reference
  /-- The names declared at the top level. -/
  declared : List String
  /-- The places of the top-level export statements. -/
  exportStatements : List Span
  deriving DecidableEq, Repr

namespace Findings

/-- Nothing. -/
def none : Findings := ⟨[], [], []⟩

/-- One more reference, if there is one. -/
def withReference (s : Findings) (r : Option Reference) : Findings :=
  { s with references := s.references ++ r.toList }

/-- One more export statement. -/
def withExport (s : Findings) (t : Span) : Findings :=
  { s with exportStatements := s.exportStatements ++ [t] }

end Findings

namespace Walk

/-! ## §1. References. -/

/-- The reference that the node `string` makes as part of `statement`.  Only a text in quotes makes
    one. -/
def reference? (w : Walk) (string statement : SyntaxNode) (kind : ReferenceKind)
    (names : List String) : Option Reference :=
  if string.construct = .stringLiteral then
    let start := string.span.start + 1
    let stop := string.span.stop - 1
    (betweenBytes? w.text start stop).map fun specifier =>
      ⟨w.path, String.ofList specifier, ⟨start, stop⟩, statement.span, kind, names,
        (w.startOf string).row + 1⟩
  else none

/-- The node that names the module of an import statement. -/
def importSource? (n : SyntaxNode) : Option SyntaxNode :=
  match n.childByField? "source" with
  | some source => some source
  | none => (n.childOfKind? .importRequireClause).bind (·.childByField? "source")

/-- The reference of an import statement. -/
def visitImport (w : Walk) (n : SyntaxNode) : Option Reference :=
  (importSource? n).bind fun source => w.reference? source n .imports []

/-- The names that a node directly inside of an export statement passes on. -/
def namesPassedOn (text : List Char) (n : SyntaxNode) : List String :=
  match n.construct with
  | .wildcard => ["*"]
  | .namespaceExport => (n.namedChildren.getLast?.map (·.textIn text)).toList
  | .exportClause =>
    (n.namedChildren.filter (·.construct == .exportSpecifier)).filterMap fun s =>
      ((s.childByField? "alias").orElse fun _ => s.childByField? "name").map (·.textIn text)
  | _ => []

/-- The reference of an export statement with the module that it names. -/
def visitExport (w : Walk) (n source : SyntaxNode) : Option Reference :=
  w.reference? source n .exports (n.children.flatMap (namesPassedOn w.text))

/-- Whether a callee loads modules. -/
def loads (text : List Char) (callee : SyntaxNode) : Bool :=
  match callee.construct with
  | .importKeyword => true
  | .identifier => callee.textIn text == "require"
  | _ => false

/-- The node that names the module that a call loads. -/
def callSource? (text : List Char) (n : SyntaxNode) : Option SyntaxNode := do
  let callee ← n.childByField? "function"
  if loads text callee then
    let arguments ← n.childByField? "arguments"
    arguments.namedChildren.head?
  else none

/-- The reference of a call. -/
def visitCall (w : Walk) (n : SyntaxNode) : Option Reference :=
  (callSource? w.text n).bind fun source => w.reference? source n .imports []

/-! ## §2. Names. -/

/-- One more name, unless it is empty or there already. -/
def declare (names : List String) (name : String) : List String :=
  if name == "" || names.contains name then names else names ++ [name]

/-- The names with that of a declaration. -/
def declareName (text : List Char) (names : List String) (n : SyntaxNode) : List String :=
  match n.childByField? "name" with
  | some name => declare names (name.textIn text)
  | none => names

/-- The names with those that the targets on the stack bind, the next target first. -/
def declarePattern (text : List Char) (names : List String) (stack : List SyntaxNode) :
    List String :=
  match stack with
  | [] => names
  | n :: stack =>
    match n.construct with
    | .identifier => declarePattern text (declare names (n.textIn text)) stack
    | .shorthandPattern => declarePattern text (declare names (n.textIn text)) stack
    | .pairPattern => declarePattern text names ((n.childByField? "value").toList ++ stack)
    | .assignmentPattern => declarePattern text names ((n.childByField? "left").toList ++ stack)
    | .objectPattern => declarePattern text names (n.namedChildren ++ stack)
    | .arrayPattern => declarePattern text names (n.namedChildren ++ stack)
    | .restPattern => declarePattern text names (n.namedChildren ++ stack)
    | _ => declarePattern text names stack
termination_by SyntaxNode.sizeAll stack
decreasing_by
  all_goals
    have hnamed := n.sizeAll_namedChildren_le
    have hvalue := n.sizeAll_childByField?_le "value"
    have hleft := n.sizeAll_childByField?_le "left"
    simp only [SyntaxNode.sizeAll_cons, SyntaxNode.sizeAll_append]
    omega

/-- The names with those of a declaration of variables. -/
def declareVariables (text : List Char) (names : List String) (n : SyntaxNode) : List String :=
  let declarators := n.namedChildren.filter (·.construct == .variableDeclarator)
  (declarators.filterMap (·.childByField? "name")).foldl
    (fun names target => declarePattern text names [target]) names

/-! ## §3. Nodes. -/

/-- What has been found once a node has been visited, and whether those inside of it are still to
    be visited. -/
def visit (w : Walk) (n : SyntaxNode) (top : Bool) (s : Findings) : Findings × Bool :=
  match n.construct with
  | .importStatement => (s.withReference (w.visitImport n), false)
  | .exportStatement =>
    let s := if top then s.withExport n.span else s
    match n.childByField? "source" with
    | some source => (s.withReference (w.visitExport n source), false)
    | none => (s, true)
  | .callExpression => (s.withReference (w.visitCall n), true)
  | .declaration =>
    (if top then { s with declared := declareName w.text s.declared n } else s, true)
  | .variableDeclaration =>
    (if top then { s with declared := declareVariables w.text s.declared n } else s, true)
  | _ => (s, true)

/-- Whether what stands directly inside of a node is at the top level. -/
def topInside (n : SyntaxNode) (top : Bool) : Bool :=
  match n.construct with
  | .program => true
  | k => k.keepsTopLevel && top

/-- What has been found once all nodes on the stack have been visited, the next one first; each with
    whether it is at the top level. -/
def run (w : Walk) (stack : List (SyntaxNode × Bool)) (s : Findings) : Findings :=
  match stack with
  | [] => s
  | (n, top) :: stack =>
    let (s, descend) := w.visit n top s
    if descend then w.run (n.children.map (fun c => (c, topInside n top)) ++ stack) s
    else w.run stack s
termination_by SyntaxNode.sizeAll (stack.map (·.1))
decreasing_by all_goals simp [Function.comp_def]; try omega

end Walk

end ModuleMove
