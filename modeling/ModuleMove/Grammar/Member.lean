import ModuleMove.Grammar.TypeExpr

/-!
# MEMBERS — the insides of classes, objects and arrays

An object or array literal may turn out to be a pattern once the `=` after it has been seen, so
these literals record whether they can be read as a value and whether as a pattern.
-/

namespace ModuleMove.Grammar

open Reader

namespace Rules

variable (g : Rules)

/-! ## §1. Methods. -/

/-- Reads a method: modifiers, name, signature and body. -/
def method : Reader Unit := node "method_definition" do
  maybe (g.whenTyped (modifierIn beginsMemberName ["public", "private", "protected"]))
  let beginsMethod (c : Char) : Bool := beginsMemberName c || c == '*'
  maybe (modifier beginsMethod "static")
  maybe (g.whenTyped (modifier beginsMethod "override"))
  maybe (g.whenTyped (modifier beginsMemberName "readonly"))
  methodModifiers
  g.memberName
  maybe (g.whenTyped (mark "?"))
  g.signature
  g.block

/-! ## §2. Classes. -/

/-- Reads the modifiers of a field. -/
def fieldModifiers : Reader Unit := do
  let access := modifierIn beginsMemberName ["public", "private", "protected"]
  let declare := modifier beginsMemberName "declare"
  maybe <| g.whenTyped <|
    (do declare; maybe access) <|> (do access; maybe declare)
  (g.whenTyped <|
    (do
      modifier beginsMemberName "readonly"
      modifier beginsMemberName "abstract")
    <|> (do
      modifier beginsMemberName "abstract"
      maybe (modifier beginsMemberName "readonly"))
    <|> modifier beginsMemberName "accessor")
  <|> (do
    maybe (modifier beginsMemberName "static")
    maybe <| g.whenTyped do
      maybe (modifier beginsMemberName "override")
      maybe (modifier beginsMemberName "readonly"))

/-- Reads the end of a member of a class. -/
def memberEnd (e : Ending) : Reader Unit := terminator g.language e <|> g.whenTyped (mark ",")

/-- Reads a field of a class, up to and including its end. -/
def field : Reader Unit := node "public_field_definition" do
  let _ ← g.decorators
  g.fieldModifiers
  g.memberName
  maybe (g.whenTyped (mark "?" <|> mark "!"))
  maybe g.annotation
  let initial ← optional (g.initializer .last)
  g.memberEnd ⟨initial.isSome, false⟩

/-- Reads the modifiers of the head of a method without a body.  Where it is abstract, it says
    neither `readonly` nor `async`. -/
def headModifiers : Reader Unit := do
  maybe (modifierIn beginsMemberName ["public", "private", "protected"])
  (do
    modifier (fun c => beginsMemberName c || c == '*') "abstract"
    maybe (modifier beginsMemberName "override")
    methodKind)
  <|> (do
    maybe (modifier beginsMemberName "static")
    maybe (modifier beginsMemberName "override")
    maybe (modifier beginsMemberName "readonly")
    methodModifiers)

/-- Reads the head of a method without a body, up to and including its end. -/
def methodHead : Reader Unit := g.whenTyped <| node "method_signature" do
  headModifiers
  g.memberName
  maybe (mark "?")
  g.signature
  g.memberEnd .afterHead

/-- Reads a member of a class. -/
def classMember : Reader Unit :=
  mark ";"
  <|> (do
    let _ ← g.decorators
    g.method
    maybe (terminator g.language .plain))
  <|> node "class_static_block" (do
    keyword "static"
    g.block)
  <|> g.methodHead
  <|> g.whenTyped (do
    maybe (modifier (· == '[') "static")
    g.indexMember
    g.memberEnd .plain)
  <|> g.field

/-- Reads the body of a class. -/
def classBody : Reader Unit := node "class_body" do
  leftBrace
  often g.classMember
  rightBrace

/-- Reads the classes and interfaces that a class builds on. -/
def heritage : Reader Unit := do
  maybe <| node "extends_clause" do
    keyword "extends"
    if g.language.typed then
      let _ ← commaSeparated do
        g.value .inner
        maybe g.typeArguments
    else g.value .inner
  maybe <| g.whenTyped <| node "implements_clause" do
    keyword "implements"
    let _ ← commaSeparated g.type

/-- Reads what follows the name of a class. -/
def classTail : Reader Unit := do
  maybe g.typeParameters
  g.heritage
  g.classBody

/-! ## §3. Object and array literals. -/

/-- What a member of an object literal or an element of an array literal can be part of. -/
structure Element where
  /-- It can be part of a value. -/
  value : Bool
  /-- It can be part of a pattern. -/
  target : Bool

/-- The kind of a literal with the elements: as a value, if it can be one. -/
def literalKind (value target : String) (es : List Element) : String :=
  if es.all (·.value) then value else target

/-- What a literal with the elements looks like from outside. -/
def collection (es : List Element) : Shape :=
  .collection (es.all (·.value)) (es.all (·.target))

/-- Reads `...x` where `x` may be a value or a target. -/
def spreadElement : Reader Element := node "spread_element" do
  mark "..."
  let s ← g.expression .inner
  pure ⟨s.isValue, s.isTarget⟩

/-- Reads a member of an object literal. -/
def objectMember : Reader Element :=
  g.spreadElement
  <|> node "pair" (do
    g.memberName
    mark ":"
    let s ← g.expression .inner
    pure ⟨s.isValue, s.isPatternElement⟩)
  <|> (do
    g.method
    pure ⟨true, false⟩)
  <|> (do
    let _ ← leaf "shorthand_property_identifier" anyWord
    let default ← optional (g.initializer .inner)
    pure ⟨default.isNone, true⟩)

theorem isPlain_objectKind (es : List Element) :
    SyntaxNode.isPlain (literalKind "object" "object_pattern" es) = true := by
  unfold literalKind
  split <;> decide

theorem isPlain_arrayKind (es : List Element) :
    SyntaxNode.isPlain (literalKind "array" "array_pattern" es) = true := by
  unfold literalKind
  split <;> decide

/-- Reads an object literal. -/
def objectLiteral : Reader Shape := collection <$>
  nodeOf (literalKind "object" "object_pattern") isPlain_objectKind (do
    leftBrace
    let es ← sparse g.objectMember
    rightBrace
    pure es)

/-- Reads an array literal. -/
def arrayLiteral : Reader Shape := collection <$>
  nodeOf (literalKind "array" "array_pattern") isPlain_arrayKind (do
    mark "["
    let es ← sparse (g.spreadElement <|> (do
      let s ← g.expression .inner
      pure ⟨s.isValue, s.isPatternElement⟩))
    mark "]"
    pure es)

end Rules

end ModuleMove.Grammar
