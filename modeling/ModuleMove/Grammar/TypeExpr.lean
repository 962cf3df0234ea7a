import ModuleMove.Grammar.Signature

/-!
# TYPES — annotations, aliases and what stands in angle brackets

A type can name a module with `import('…')`, and a type query can call a function, so there are
calls among the nodes of types too.
-/

namespace ModuleMove.Grammar

open Cursor Reader

namespace Rules

variable (g : Rules)

/-! ## §1. Types that name values. -/

/-- The kind of the first word of a type that names a value. -/
def queriedKind (w : String) : String := if w == "import" then "import" else nameKind w

theorem isWord_queriedKind (w : String) : SyntaxNode.isWord (queriedKind w) = true := by
  unfold queriedKind
  split
  · decide
  · exact isWord_nameKind w

/-- Reads a value that a type can name: one that `p` reads, its members and calls of them. -/
def queried {α : Type} (p : Reader α) : Reader Unit := do
  -- what has just been called is not called again
  let callee : Reader Bool := do
    let _ ← p
    pure true
  let _ ← grown callee fun callable _ =>
    (if callable then [.call false false (pure ()) (pure ()) g.arguments] else []) ++
      [.node (some "object") "member_expression" (do
        mark "?." <|> mark "."
        (do let _ ← leaf "property_identifier" anyWord)
          <|> leaf "private_property_identifier" hiddenName
        pure true)]

/-- Reads `import('…')` with its members. -/
def importType : Reader Unit := g.queried do
  let _ ← leaf "import" (keyword "import")
  match (← nextChar) with
  | some c => require (c == '(' || c == '.')
  | none => stuck

/-- Reads `typeof` with the value that it asks for. -/
def typeQuery : Reader Unit := node "type_query" do
  keyword "typeof"
  g.queried (leafOf queriedKind isWord_queriedKind anyWord)
  maybe g.typeArguments

/-! ## §2. Literal types. -/

/-- The number of characters before a backtick or an opening `$` and brace. -/
def chunkLength : List Char → Option Nat
  | '\x60' :: _ => some 0
  | '$' :: '\x7b' :: _ => some 0
  | '\\' :: _ :: r => (chunkLength r).map (· + 2)
  | _ :: r => (chunkLength r).map (· + 1)
  | [] => none

/-- Reads characters of a template up to its end or to something inserted. -/
def chunk : Reader Unit := readUpTo fun cs =>
  match chunkLength cs with
  | some n => if escapesComplete (cs.take n) then some (cs.drop n) else none
  | none => none

/-- Reads what stands in a template between backticks, where `hole` reads what is inserted. -/
def templateParts (hole : Reader Unit) : Reader Unit := do
  mark "\x60"
  often do
    chunk
    nodeHere (fun _ => "template_substitution") (fun _ => Eq.refl true) do
      exactly "$\x7b"
      hole
      rightBrace
  chunk
  exactly "\x60"

/-- Reads a number with or without a sign. -/
def signedNumber : Reader Unit := leaf "number" do
  maybe (mark "-" <|> mark "+")
  number

/-! ## §3. Object types. -/

/-- Reads the modifiers of a member of an object type. -/
def memberModifiers : Reader Unit := do
  maybe (modifierIn beginsMemberName ["public", "private", "protected"])
  maybe (modifier beginsMemberName "static")
  maybe (modifier beginsMemberName "override")
  maybe (modifier beginsMemberName "readonly")

/-- Reads what tells that a method reads, writes or generates. -/
def methodKind : Reader Unit := maybe (modifierIn beginsMemberName ["get", "set"] <|> mark "*")

/-- Reads the modifiers that a method alone can have. -/
def methodModifiers : Reader Unit := do
  maybe (modifier (fun c => beginsMemberName c || c == '*') "async")
  methodKind

/-- Reads a method or property of an object type. -/
def namedMember : Reader Unit := node "property_signature" do
  memberModifiers
  methodModifiers
  g.memberName
  maybe (mark "?")
  g.signature <|> maybe g.annotation

/-- Reads `[name: type]: type` or `[name in type]: type`, the members with any name. -/
def indexMember : Reader Unit := node "index_signature" do
  maybe do
    maybe (mark "-" <|> mark "+")
    keyword "readonly"
  mark "["
  let _ ← leaf "identifier" anyWord
  (do
    mark ":"
    g.type)
  <|> (do
    keyword "in"
    g.type
    maybe do
      keyword "as"
      g.type)
  mark "]"
  mark "-?:" <|> mark "+?:" <|> mark "?:" <|> mark ":"
  g.type

/-- Reads the signature of a constructor. -/
def constructMember : Reader Unit := node "construct_signature" do
  maybe (keyword "abstract")
  keyword "new"
  maybe g.typeParameters
  g.parameters
  maybe g.annotation

/-- Reads a member of an object type. -/
def typeMember : Reader Unit :=
  g.indexMember <|> g.constructMember <|> node "call_signature" g.signature <|> g.namedMember

/-- Reads what stands between two members of an object type. -/
def memberSeparator : Reader Unit := mark "," <|> terminator g.language .plain

/-- Reads an object type. -/
def objectType : Reader Unit := node "object_type" do
  leftBrace
  maybe (mark "," <|> mark ";")
  maybe g.typeMember
  often do
    g.memberSeparator
    g.typeMember
  maybe g.memberSeparator
  rightBrace

/-! ## §4. Tuples, functions and names. -/

/-- Reads a member of a tuple type: `...type`, `name: type`, `name?: type`, `type?` or `type`. -/
def tupleMember : Reader Unit :=
  node "required_parameter" (do
    maybe (mark "...")
    let _ ← leaf "identifier" anyWord
    maybe (mark "?")
    mark ":"
    g.type)
  <|> node "optional_type" (do
    maybe (mark "...")
    g.type
    maybe (mark "?"))

/-- Reads a function type. -/
def functionType : Reader Unit := node "function_type" do
  maybe g.typeParameters
  g.parameters
  operatorIs "=>"
  g.returned

/-- Reads the type of a constructor. -/
def constructorType : Reader Unit := node "constructor_type" do
  maybe (keyword "abstract")
  keyword "new"
  g.functionType

/-- Words that begin a type and are no names of types. -/
def typeWords : List String :=
  ["infer", "readonly", "keyof", "unique", "typeof", "abstract", "new", "import"]

/-- Reads the name of a type, with its members and arguments. -/
def namedType : Reader Unit := node "generic_type" do
  let _ ← leaf "type_identifier" (wordThat fun w => !typeWords.contains w)
  often do
    mark "."
    leaf "type_identifier" anyWord
  maybe g.typeArguments

/-- Reads a type that brackets can follow. -/
def primaryType : Reader Unit :=
  node "parenthesized_type" (do
    mark "("
    g.type
    mark ")")
  <|> node "tuple_type" (do
    mark "["
    maybe (commaSeparated g.tupleMember)
    maybe (mark ",")
    mark "]")
  <|> g.objectType
  <|> node "literal_type" (literal <|> signedNumber)
  <|> node "template_literal_type" (templateParts g.type)
  <|> leaf "existential_type" (mark "*")
  <|> node "flow_maybe_type" (do
    mark "?"
    g.type)
  <|> g.typeQuery
  <|> leaf "predefined_type" (do
    keyword "unique"
    keyword "symbol")
  <|> g.namedType

/-- Reads a type with the brackets that follow it on its line. -/
def postfixType : Reader Unit :=
  grown g.primaryType fun _ c =>
    if breaksHere g.language .plain c then []
    else [.node none "array_type" (do
      mark "["
      maybe g.type
      mark "]")]

/-- Reads an operand of a union or intersection. -/
def typeOperand : Reader Unit :=
  g.functionType
  <|> g.constructorType
  <|> node "infer_type" (do
    keyword "infer"
    let _ ← leaf "type_identifier" anyWord
    maybe do
      keyword "extends"
      g.type)
  <|> node "readonly_type" (do
    keyword "readonly"
    g.type)
  <|> node "index_type_query" (do
    keyword "keyof"
    g.type)
  <|> g.importType
  <|> g.postfixType

/-- Reads a type without a condition. -/
def unionType : Reader Unit := do
  maybe (operatorIn ["|", "&"])
  grown g.typeOperand fun _ _ => [
    .node none "union_type" do
      operatorIn ["|", "&"]
      g.typeOperand]

/-- Reads a type. -/
def readType : Reader Unit :=
  grownOnce g.unionType fun _ c =>
    if breaksHere g.language .plain c then []
    else [.node (some "left") "conditional_type" (do
      keyword "extends"
      g.type
      mark "?"
      g.type
      mark ":"
      g.type)]

end Rules

end ModuleMove.Grammar
