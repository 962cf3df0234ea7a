import ModuleMove.Grammar.Linkage

/-!
# STATEMENTS — and whole texts

Reading goes to a bounded depth: the readers for depth `n + 1` call those for depth `n`.  Since
every level of brackets takes at least one character, the length of the text bounds the depth
that it can need.
-/

namespace ModuleMove.Grammar

open Cursor Reader

namespace Rules

variable (g : Rules)

/-! ## §1. Simple statements. -/

/-- Words that begin a statement of their own and are never names at its start. -/
def statementWords (language : Language) : List String :=
  ["import", "debugger", "if", "switch", "for", "while", "do", "try", "with", "break",
    "continue", "return", "throw", "var", "const"]
  ++ (if language.typed then ["enum", "interface", "abstract"] else [])

/-- Whether what follows the word `w`, read as a name, would rather make it the beginning of a
    statement of its own. -/
def claimed (w : String) : Reader Bool := do
  let after (p : Reader Unit) : Reader Bool := sees do
    let _ ← anyWord
    p
  match w with
  | "export" => after (operatorIs "*" <|> g.whenTyped (operatorIs "=" <|> keyword "as"))
  | "let" => after (mark "[")
  | _ => pure false

/-- Reads an expression that is a statement. -/
def expressionStatement : Reader Unit := node "expression_statement" do
  match (← nextWord) with
  | some "import" => pure ()
  | some w =>
    require !(statementWords g.language).contains w
    require !(← g.claimed w)
  | none => pure ()
  g.sequence .last
  terminator g.language .afterOperand

/-- Reads a statement with a label. -/
def labelled : Reader Unit := node "labeled_statement" do
  let _ ← leaf "statement_identifier" (wordThat fun w => !(statementWords g.language).contains w)
  mark ":"
  g.statement

/-- Reads what stands in a jump to the start or the end of a loop. -/
def jump : Reader Unit := do
  if !(← brokenOff g.language .plain) then maybe (leaf "statement_identifier" anyWord)
  terminator g.language .plain

/-- Reads what a function hands back. -/
def returnedValue : Reader Unit := do
  if ← brokenOff g.language .plain then terminator g.language .plain
  else
    (do
      g.sequence .last
      terminator g.language .afterOperand)
    <|> terminator g.language .plain

/-- Reads a thrown value. -/
def thrownValue : Reader Unit := do
  g.sequence .last
  terminator g.language .afterOperand

/-! ## §2. Statements with statements inside. -/

/-- Reads what stands in an `if` statement. -/
def ifTail : Reader Unit := do
  g.grouped
  g.statement
  maybe <| node "else_clause" do
    keyword "else"
    g.statement

/-- Reads one case of a `switch` statement. -/
def switchCase : Reader Unit := node "switch_case" do
  (do
    keyword "case"
    g.sequence .inner)
  <|> keyword "default"
  mark ":"
  often do
    let w ← nextWord
    require (w != some "case" && w != some "default")
    g.statement

/-- Reads what stands in a `switch` statement. -/
def switchTail : Reader Unit := do
  g.grouped
  node "switch_body" do
    leftBrace
    often g.switchCase
    rightBrace

/-- Reads the target of a loop over elements. -/
def loopTarget : Reader Unit :=
  (do
    keyword "var"
    g.declaratorTarget
    maybe (g.initializer ⟨false, false, true⟩))
  <|> (do
    wordIn ["let", "const"]
    g.declaratorTarget)
  <|> (do
    let s ← g.operand ⟨false, false, true⟩
    require s.isTarget)

/-- Reads the head of a loop over elements. -/
def elementsHead : Reader Unit := do
  mark "("
  g.loopTarget
  wordIn ["in", "of"]
  g.sequence .inner
  mark ")"

/-- Reads the head of a loop that counts. -/
def countingHead : Reader Unit := do
  mark "("
  g.variableDeclaration
    <|> (do
      g.sequence .inner
      mark ";")
    <|> mark ";"
  maybe (g.sequence .inner)
  mark ";"
  maybe (g.sequence .inner)
  mark ")"

/-- Reads what stands in a `do` statement. -/
def doTail : Reader Unit := do
  g.statement
  keyword "while"
  g.grouped
  maybe (terminator g.language .plain)

/-- Reads what stands in a `try` statement. -/
def tryTail : Reader Unit := do
  g.block
  maybe <| node "catch_clause" do
    keyword "catch"
    maybe do
      mark "("
      g.declaratorTarget
      maybe g.annotation
      mark ")"
    g.block
  maybe <| node "finally_clause" do
    keyword "finally"
    g.block

/-- Reads what stands in a statement that has a condition and a body. -/
def guardedTail : Reader Unit := do
  g.grouped
  g.statement

/-! ## §3. All statements. -/

/-- Makes one node of the word `w` and what `p` reads behind it. -/
def after (w kind : String) (p : Reader Unit)
    (h : SyntaxNode.isPlain kind = true := by exact Eq.refl true) : Reader Unit :=
  node kind (do keyword w; p) h

/-- Reads a declaration, a statement with a label, or an expression. -/
def plainStatement : Reader Unit := g.declaration true <|> g.labelled <|> g.expressionStatement

/-- Reads a statement that begins with the word `w`. -/
def wordStatement (w : String) : Reader Unit :=
  match w with
  | "import" => g.importStatement <|> g.plainStatement
  | "export" => g.exportStatement <|> g.plainStatement
  | "if" => after w "if_statement" g.ifTail
  | "switch" => after w "switch_statement" g.switchTail
  | "for" =>
    after w "for_in_statement" (do
      maybe (keyword "await")
      g.elementsHead
      g.statement)
    <|> after w "for_statement" (do
      g.countingHead
      g.statement)
  | "while" => after w "while_statement" g.guardedTail
  | "with" => after w "with_statement" g.guardedTail
  | "do" => after w "do_statement" g.doTail
  | "try" => after w "try_statement" g.tryTail
  | "break" => after w "break_statement" g.jump
  | "continue" => after w "continue_statement" g.jump
  | "return" => after w "return_statement" g.returnedValue
  | "throw" => after w "throw_statement" g.thrownValue
  | "debugger" => after w "debugger_statement" (terminator g.language .plain)
  | _ => g.plainStatement

/-- Reads a statement. -/
def readStatement : Reader Unit := do
  match (← nextChar) with
  | some '\x7b' => g.block <|> g.expressionStatement
  | some ';' => leaf "empty_statement" (mark ";")
  | some '@' => g.exportStatement <|> g.declaration true <|> g.expressionStatement
  | some _ =>
    match (← nextWord) with
    | some w => g.wordStatement w
    | none => g.expressionStatement
  | none => stuck

/-! ## §4. Reading to a bounded depth. -/

/-- The readers that call each other at most `depth` times. -/
def upTo (language : Language) : Nat → Rules
  | 0 => nowhere language
  | depth + 1 => {
      language := language
      expression := fun x => .delay fun _ => (upTo language depth).readExpression x
      operand := fun x => .delay fun _ => (upTo language depth).readOperand x
      type := .delay fun _ => (upTo language depth).readType
      pattern := .delay fun _ => (upTo language depth).readPattern
      statement := .delay fun _ => (upTo language depth).readStatement
      element := .delay fun _ => (upTo language depth).readElement }

/-- Reads a whole text. -/
def document : Reader Unit := do
  maybe <| leaf "hash_bang_line" do
    mark "#!"
    .skip (Cursor.dropWhile (· != '\n')) (leadsTo_dropWhile _)
  often g.statement
  overBlanks
  let ended ← look fun c => c.rest.isEmpty
  require ended

end Rules

/-! ## §5. The nodes of a text. -/

/-- Reads a text to a depth that it cannot need. -/
def documentOf (language : Language) (c : Cursor) : Outcome Unit :=
  (Rules.upTo language (4 * c.rest.length + 16)).document.read c

/-- The nodes of a source text, or the offset up to which it can be read.  No text can be read
    past a character of code zero. -/
def readText (language : Language) (source : String) : Except Nat (List SyntaxNode) :=
  let c := Cursor.ofText source
  let zero := c.dropWhile (·.toNat != 0)
  if !zero.rest.isEmpty then .error zero.offset
  else
    match documentOf language c with
    | .found _ ns _ _ => .ok ns
    | .stuck reach => .error reach

end ModuleMove.Grammar
