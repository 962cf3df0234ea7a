import ModuleMove.Grammar.Operand

/-!
# EXPRESSIONS — operators between operands

Only which operands there are matters to what is asked of a tree, not which operator binds more
tightly, so a chain of operators is read from left to right without regard to precedence.  An
assignment is part of the operand on its left.
-/

namespace ModuleMove.Grammar

open Cursor Reader

namespace Rules

variable (g : Rules)

/-! ## §1. Operands with what stands before them. -/

/-- Reads an operand that has a value. -/
def valueOperand (x : Context) : Reader Unit := do
  let s ← g.operand x
  require s.isValue

/-- Reads one of the words listed. -/
def wordIn (ws : List String) : Reader Unit := do
  let _ ← wordThat ws.contains

/-- Reads an operator that stands before its operand. -/
def prefixed (x : Context) : Reader Unit :=
  node "unary_expression" (do
    operatorIn ["!", "~", "+", "-"] <|> wordIn ["typeof", "void", "delete"]
    g.valueOperand x)
  <|> node "update_expression" (do
    operatorIn ["++", "--"]
    g.valueOperand x)
  <|> node "await_expression" (do
    keyword "await"
    g.valueOperand x)

/-- Reads `yield` and what it hands over. -/
def yielded (x : Context) : Reader Unit := node "yield_expression" do
  keyword "yield"
  let ended ← brokenOff g.language .plain
  if !(x.ends && ended) then
    (do
      operatorIs "*"
      g.value x)
    <|> maybe (g.value x)

/-- Reads `<type>value`, where markup does not take its place. -/
def cast (x : Context) : Reader Unit := do
  require !g.language.markup
  node "type_assertion" do
    g.typeArguments
    g.valueOperand x

/-- Reads an assignment that declares what it assigns to for disposal. -/
def usingAssignment (x : Context) : Reader Unit := g.whenTyped do
  keyword "using"
  match (← g.operand x) with
  | .assigned _ => pure ()
  | _ => stuck

/-- Reads a namespace with its body, which may be missing, where a value is expected. -/
def namespaceValue (x : Context) : Reader Unit := g.whenTyped <| node "internal_module" do
  keyword "namespace"
  let ended ← brokenOff g.language .afterOperand
  require !(x.ends && ended)
  literal
    <|> (do
      let _ ← leaf "identifier" (wordThat fun w => !("of" :: continuingWords).contains w)
      often do
        mark "."
        leaf "property_identifier" anyWord)
  maybe g.block

/-! ## §2. Assignments. -/

/-- The operators that change what stands on their left. -/
def changingOperators : List String :=
  ["+=", "-=", "*=", "/=", "%=", "^=", "&=", "|=", ">>=", ">>>=", "<<=", "**=", "&&=", "||=",
    "??="]

/-- The assignments to something of the given shape. -/
def assignments (x : Context) (s : Shape) : List (Growth Shape) :=
  (if s.isTarget then
    [.node (some "left") "assignment_expression" do
      operatorIs "="
      g.value x
      pure (.assigned s.isPatternElement)]
  else []) ++
  (if s.isPlace then
    [.node (some "left") "augmented_assignment_expression" do
      operatorIn changingOperators
      g.value x
      pure .closed]
  else [])

/-- What follows an operand of the given shape, the assignments to it last. -/
def continued (x : Context) (s : Shape) (c : Cursor) : List (Growth Shape) :=
  g.following x false s c ++ g.assignments x s

/-- Reads an operand: a value with all that stands directly before and after it. -/
def readOperand (x : Context) : Reader Shape :=
  grown (g.arrowFunction x) (g.following x false)
  <|> plainValue (g.prefixed x)
  <|> plainValue (g.yielded x)
  <|> grown (g.construction x) (g.continued x)
  <|> plainValue (g.usingAssignment x)
  <|> plainValue (g.cast x)
  <|> plainValue (g.namespaceValue x)
  <|> grown g.primary (g.continued x)

/-! ## §3. Chains of operators. -/

/-- The operators between two operands. -/
def binaryOperators : List String :=
  ["&&", "||", ">>", ">>>", "<<", "&", "^", "|", "+", "-", "*", "/", "%", "**", "<", "<=", "==",
    "===", "!=", "!==", ">=", ">", "??"]

/-- Reads an operator between two operands. -/
def binaryOperator (x : Context) : Reader Unit :=
  operatorIn binaryOperators
  <|> (do let _ ← wordThat fun w => w == "instanceof" || (w == "in" && x.inOperator))

/-- The links of a chain: an operator and its operand, or a type that the value before it is said to
    have. -/
def links (x : Context) : List (Growth Shape) :=
  .node (some "left") "binary_expression" (do
    binaryOperator x
    g.valueOperand x
    pure .value) ::
  (if g.language.typed then
    [.node none "as_expression" do
      wordIn ["as", "satisfies"]
      g.type
      pure .value]
  else [])

/-- Both outcomes of a choice. -/
def choice (x : Context) : Growth Shape := .node (some "condition") "ternary_expression" do
  operatorIs "?"
  (do
    g.value .inner
    mark ":")
  <|> (do
    g.value ⟨false, true, false⟩
    mark ":")
  g.value x
  pure .value

/-- Whether an expression goes on behind something of the given shape. -/
def goesOn (x : Context) (s : Shape) (c : Cursor) : Bool :=
  s.isValue && !(x.ends && breaksHere g.language .afterOperand c)

/-- Reads an expression.  Behind it no comment of markup can stand: it would consist of
    operators. -/
def readExpression (x : Context) : Reader Shape := do
  let s ← grownOnce
    (grown (g.operand x) fun s c => if g.goesOn x s c then g.links x else [])
    (fun s c => if g.goesOn x s c then [g.choice x] else [])
  let ended ← look fun c =>
    !markupCommentAt c.pastComments.rest || (x.ends && breaksHere g.language .afterOperand c)
  require ended
  pure s

end Rules

end ModuleMove.Grammar
