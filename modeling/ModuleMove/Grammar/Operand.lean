import ModuleMove.Grammar.Markup

/-!
# OPERANDS — what stands between binary operators

An operand is a primary expression with everything that can follow it directly: members,
arguments, templates.  A function with an arrow is tried wherever its parameters could begin.
-/

namespace ModuleMove.Grammar

open Cursor Reader

namespace Rules

variable (g : Rules)

/-! ## §1. Functions and classes as values. -/

/-- Words that are no names where a value is expected. -/
def valueWords (language : Language) : List String :=
  ["import", "function", "class", "this", "super", "true", "false", "null", "undefined",
    "typeof", "void", "delete", "await", "yield"]
  ++ (if language.typed then ["using"] else ["new"])

/-- Reads a name where a value is expected. -/
def valueName : Reader Unit := do
  let _ ← leaf "identifier" (wordThat fun w => !(valueWords g.language).contains w)

/-- Reads `async`, as a word that belongs to what follows on its line. -/
def asyncWord : Reader Unit := do
  keyword "async"
  require !(← brokenOff g.language .afterOperand)

/-- Reads the parameters of an arrow function. -/
def arrowParameters (x : Context) : Reader Unit :=
  g.valueName
  <|> (do
    maybe g.typeParameters
    g.parameters
    if x.returnType then maybe g.returnType)

/-- Reads an arrow function. -/
def arrowFunction (x : Context) : Reader Shape := node "arrow_function" do
  (do
    g.asyncWord
    g.arrowParameters x
    operatorIs "=>")
  <|> (do
    g.arrowParameters x
    operatorIs "=>")
  (do
    g.block
    pure .value)
  <|> (do
    g.value x
    pure .closed)

/-- Reads a function that is a value, with or without a name. -/
def functionValue : Reader Unit := node "function_expression" do
  maybe g.asyncWord
  keyword "function"
  maybe (mark "*")
  maybe (leaf "identifier" anyWord)
  g.signature
  g.block

/-- Reads a class that is a value, with or without a name. -/
def classValue : Reader Unit := node "class" do
  let _ ← g.decorators
  keyword "class"
  g.classTail <|> (do
    let _ ← leaf "identifier" anyWord
    g.classTail)

/-! ## §2. Primary expressions. -/

/-- Reads values in parentheses. -/
def grouped : Reader Unit := node "parenthesized_expression" do
  mark "("
  (do
    g.value .inner
    maybe g.annotation
    mark ")")
  <|> (do
    g.sequence .inner
    mark ")")

/-- Reads `import(…)` or `import.meta`. -/
def importValue : Reader Shape :=
  grow (leaf "import" (keyword "import")) fun _ => [
    g.calledWithTypes,
    g.called,
    .node none "meta_property" do
      mark "."
      let _ ← leaf "property_identifier" anyWord
      pure .place]

/-- Reads a name as a value. -/
def nameValue : Reader Shape :=
  (do
    g.valueName
    pure .name)
  <|> (do
    let _ ← leaf "this" (wordThat fun w => ["this", "super", "true", "false", "null"].contains w)
    pure .value)
  <|> (do
    leaf "undefined" (keyword "undefined")
    pure .place)

/-- Reads something that has a value and cannot be assigned to. -/
def plainValue (p : Reader Unit) : Reader Shape := do
  p
  pure .value

/-- Reads a primary expression that begins with a word. -/
def wordValue : Reader Shape := do
  match (← nextWord) with
  | some "import" => g.importValue
  | some "function" => plainValue g.functionValue
  | some "class" => plainValue g.classValue
  | some "async" => plainValue g.functionValue <|> g.nameValue
  | _ => g.nameValue

/-- Reads a primary expression. -/
def primary : Reader Shape := do
  match (← nextChar) with
  | some '(' =>
    g.grouped
    pure .grouped
  | some '[' => g.arrayLiteral
  | some '\x7b' => g.objectLiteral
  | some '\'' => plainValue literal
  | some '"' => plainValue literal
  | some '\x60' => plainValue (node "template_string" (templateParts (g.sequence .inner)))
  | some '/' => plainValue (leaf "regex" regularExpression)
  | some '#' => plainValue (leaf "private_property_identifier" hiddenName)
  | some '@' => plainValue g.classValue
  | some '.' => plainValue (leaf "number" number)
  | some '<' => if g.language.markup then plainValue g.element else stuck
  | some c => if c.isDigit then plainValue (leaf "number" number) else g.wordValue
  | none => stuck

/-! ## §3. Members, arguments and templates after a value. -/

/-- Whether a value can begin with the character. -/
def beginsValue (c : Char) : Bool :=
  isWordStart c || c.isDigit || ['\\', '"', '\'', '(', '[', '\x7b', '\x60', '#', '@', '/',
    '!', '~', '<'].contains c

/-- The words that go on after a value and are no values themselves. -/
def continuingWords : List String := ["as", "satisfies", "in", "instanceof", "implements"]

/-- Whether a value begins after the blanks. -/
def valueNext : Reader Bool := do
  match (← nextWord) with
  | some w => pure !continuingWords.contains w
  | none => pure (((← nextChar).map fun c => beginsValue c && c != '\x7b').getD false)

/-- Reads the name of a member. -/
def member (sign : Reader Unit) : Growth Shape := .node (some "object") "member_expression" do
  sign
  (do let _ ← leaf "property_identifier" anyWord)
    <|> leaf "private_property_identifier" hiddenName
  pure .place

/-- Reads `[index]`. -/
def element? (sign : Reader Unit) : Growth Shape :=
  .node (some "object") "subscript_expression" do
    sign
    mark "["
    g.sequence .inner
    mark "]"
    pure .place

/-- A template that a value is applied to. -/
def tagged : Growth Shape :=
  .call .value true (pure ()) (pure ()) (templateParts (g.sequence .inner))

/-- Types that a value is applied to, where no value can follow them. -/
def instantiated : Growth Shape := .node none "instantiation_expression" do
  g.typeArguments
  require !(← valueNext)
  pure .value

/-- An operator behind its operand. -/
def updated (operator : String) : Growth Shape :=
  .node (some "argument") "update_expression" do
    operatorIs operator
    pure .value

/-- What can follow a value directly.  `new` is followed by members, but not by arguments that would
    belong to its callee. -/
def accesses (construct : Bool) (c : Cursor) : List (Growth Shape) :=
  match c.pastComments.rest.head? with
  | some '.' => [member (operatorIs ".")]
  | some '?' =>
    let sign := operatorIs "?."
    [.call .value false sign g.typeArguments g.arguments,
      .call .value false sign (pure ()) g.arguments, g.element? sign, member sign]
  | some '[' => [g.element? (pure ())]
  | some '\x60' => [g.tagged]
  | some '(' => if construct then [] else [g.called]
  | some '!' =>
    if g.language.typed then
      [.node none "non_null_expression" do
        operatorIs "!"
        pure .place]
    else []
  | some '<' => if construct then [] else [g.calledWithTypes, g.instantiated]
  | some '+' => if construct then [] else [updated "++"]
  | some '-' => if construct then [] else [updated "--"]
  | _ => []

/-- What can follow a value of the given shape directly, unless a line break has ended it. -/
def following (x : Context) (construct : Bool) (s : Shape) (c : Cursor) : List (Growth Shape) :=
  if s.isOpen && !(x.ends && breaksHere g.language .afterOperand c) then g.accesses construct c
  else []

/-- Reads what is constructed by `new`. -/
def construction (x : Context) : Reader Shape :=
  node "meta_property" (do
    keyword "new"
    mark "."
    keyword "target"
    pure .value)
  <|> node "new_expression" (do
    keyword "new"
    let _ ← grown (do
        let s ← g.primary
        require s.isValue
        pure s)
      (g.following x true)
    maybe g.typeArguments
    maybe g.arguments
    pure .value)

end Rules

end ModuleMove.Grammar
