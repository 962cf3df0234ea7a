import ModuleMove.Grammar.Call

/-!
# TARGETS — names and patterns that a declaration or a parameter binds

A target is a name, an object pattern or an array pattern.  In a pattern, keys and default values
bind nothing: only the targets beside them do.
-/

namespace ModuleMove.Grammar

open Reader

namespace Rules

variable (g : Rules)

/-! ## §1. Names of members. -/

/-- Reads `[value]`, the computed name of a member. -/
def computedName : Reader Unit := node "computed_property_name" do
  mark "["
  g.value .inner
  mark "]"

/-- Reads the name of a member. -/
def memberName : Reader Unit :=
  (do let _ ← leaf "property_identifier" anyWord)
  <|> literal
  <|> leaf "number" number
  <|> leaf "private_property_identifier" hiddenName
  <|> g.computedName

/-! ## §2. Initial values and annotations. -/

/-- Reads `= value`. -/
def initializer (x : Context) : Reader Unit := do
  operatorIs "="
  g.value x

/-- Reads `: type`. -/
def annotation : Reader Unit := g.whenTyped <| node "type_annotation" do
  mark ":"
  g.type

/-! ## §3. Patterns. -/

/-- The kind of a name that is a value or an element of a pattern: the word `undefined` is none. -/
def nameKind (w : String) : String := if w == "undefined" then "undefined" else "identifier"

theorem isWord_nameKind (w : String) : SyntaxNode.isWord (nameKind w) = true := by
  unfold nameKind
  split <;> decide

/-- Reads a name and perhaps members of what it names. -/
def namedTarget : Reader Unit :=
  grown (do let _ ← leafOf nameKind isWord_nameKind anyWord) fun _ _ => [
    .node (some "object") "member_expression" (do
      mark "."
      let _ ← leaf "property_identifier" anyWord),
    .node (some "object") "subscript_expression" (do
      mark "["
      g.sequence .inner
      mark "]")]

/-- Reads a target and perhaps its default value. -/
def targetWithDefault : Reader Unit :=
  grownOnce g.pattern fun _ _ => [.node (some "left") "assignment_pattern" (g.initializer .inner)]

/-- Reads `...target`. -/
def restTarget : Reader Unit := node "rest_pattern" do
  mark "..."
  g.pattern

/-- Reads a member of an object pattern. -/
def memberTarget : Reader Unit :=
  g.restTarget
  <|> node "pair_pattern" (do
    g.memberName
    mark ":"
    asField "value" g.targetWithDefault)
  <|> grownOnce (do let _ ← leaf "shorthand_property_identifier_pattern" anyWord) fun _ _ =>
    [.node (some "left") "object_assignment_pattern" (g.initializer .inner)]

/-- Reads an object or array pattern. -/
def destructuring : Reader Unit :=
  node "object_pattern" (do
    leftBrace
    let _ ← sparse g.memberTarget
    rightBrace)
  <|> node "array_pattern" (do
    mark "["
    let _ ← sparse g.targetWithDefault
    mark "]")

/-- Reads the target of a parameter or of an element of a pattern. -/
def readPattern : Reader Unit := g.destructuring <|> g.restTarget <|> g.namedTarget

/-- Reads what a variable declarator binds: a name or a pattern. -/
def declaratorTarget : Reader Unit :=
  g.destructuring <|> (do let _ ← leaf "identifier" anyWord)

end Rules

end ModuleMove.Grammar
