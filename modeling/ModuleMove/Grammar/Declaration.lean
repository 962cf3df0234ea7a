import ModuleMove.Grammar.Expression

/-!
# DECLARATIONS — what binds names

An export statement stops where its declaration does.  A line break may belong to a function or
class, and with it the comments before the break.
-/

namespace ModuleMove.Grammar

open Reader

/-- Reads a name that is declared. -/
def declaredName (p : Reader String) : Reader Unit :=
  asField "name" (do let _ ← leaf "identifier" p)

namespace Rules

variable (g : Rules)

/-! ## §1. Variables. -/

/-- Reads a variable declarator, and tells whether it has an initial value. -/
def declarator (x : Context) : Reader Bool := node "variable_declarator" do
  asField "name" g.declaratorTarget
  maybe do
    maybe (mark "!")
    g.annotation
  let initial ← optional (g.initializer x)
  pure initial.isSome

/-- The kind of a declaration of variables that begins with the word. -/
def variablesKind (w : String) : String :=
  if w == "var" then "variable_declaration" else "lexical_declaration"

theorem isPlain_variablesKind (w : String) : SyntaxNode.isPlain (variablesKind w) = true := by
  unfold variablesKind
  split <;> decide

/-- Reads a declaration of variables. -/
def variableDeclaration : Reader Unit := do
  let _ ← nodeOf variablesKind isPlain_variablesKind do
    let w ← wordThat ["var", "let", "const"].contains
    if w == "let" then require !(← brokenOff g.language .afterOperand)
    let ds ← commaSeparated (g.declarator .last)
    terminator g.language ⟨ds.getLast?.getD false, false⟩
    pure w

/-! ## §2. Functions and classes. -/

/-- The forms of a function with a name. -/
inductive FunctionForm where
  /-- With a body. -/
  | plain
  /-- With a body, and a star before the name. -/
  | generator
  /-- Without a body. -/
  | signature

/-- The kind of a function of the form. -/
def FunctionForm.kind : FunctionForm → String
  | plain => "function_declaration"
  | generator => "generator_function_declaration"
  | signature => "function_signature"

theorem FunctionForm.isPlain_kind (f : FunctionForm) : SyntaxNode.isPlain f.kind = true := by
  cases f <;> decide

/-- Reads a function with a name; `bare` where it could also have been a value. -/
def functionDeclaration (bare : Bool) : Reader Unit := do
  let _ ← nodeOf FunctionForm.kind FunctionForm.isPlain_kind do
    maybe g.asyncWord
    keyword "function"
    let star ← optional (mark "*")
    declaredName anyWord
    g.signature
    (do
      g.block
      lineBreak g.language ⟨bare, false⟩
      pure (if star.isSome then .generator else .plain))
    <|> g.whenTyped (do
      require star.isNone
      terminator g.language .afterHead
      pure .signature)

/-- The kind of a class, which may be abstract. -/
def classKind (abstract : Bool) : String :=
  if abstract then "abstract_class_declaration" else "class_declaration"

theorem isPlain_classKind (abstract : Bool) :
    SyntaxNode.isPlain (classKind abstract) = true := by
  cases abstract <;> decide

/-- Reads a class with a name. -/
def classDeclaration (bare : Bool) : Reader Unit := do
  let _ ← nodeOf classKind isPlain_classKind do
    let _ ← g.decorators
    let abstract ← optional (g.whenTyped (keyword "abstract"))
    keyword "class"
    declaredName (wordThat fun w => w != "extends" && !(g.language.typed && w == "implements"))
    g.classTail
    if abstract.isNone then lineBreak g.language ⟨bare, false⟩
    pure abstract.isSome

/-! ## §3. Declarations of the typed languages. -/

/-- Reads an interface. -/
def interfaceDeclaration : Reader Unit := node "interface_declaration" do
  keyword "interface"
  declaredName anyWord
  maybe g.typeParameters
  maybe <| node "extends_type_clause" do
    keyword "extends"
    let _ ← commaSeparated g.namedType
  g.objectType

/-- Reads a name for a type. -/
def aliasDeclaration : Reader Unit := node "type_alias_declaration" do
  keyword "type"
  require !(← brokenOff g.language .afterOperand)
  declaredName anyWord
  maybe g.typeParameters
  operatorIs "="
  g.type
  terminator g.language .plain

/-- Reads an enumeration. -/
def enumDeclaration : Reader Unit := node "enum_declaration" do
  maybe (keyword "const")
  keyword "enum"
  declaredName anyWord
  leftBrace
  maybe <| commaTerminated do
    g.memberName
    maybe (g.initializer .inner)
  rightBrace

/-- Reads a name with members, such as `a.b.c`. -/
def dottedName : Reader Unit := do
  let _ ← leaf "identifier" anyWord
  often do
    mark "."
    leaf "property_identifier" anyWord

/-- The kind of a namespace or module that begins with the word. -/
def moduleKind (w : String) : String := if w == "namespace" then "internal_module" else "module"

theorem isPlain_moduleKind (w : String) : SyntaxNode.isPlain (moduleKind w) = true := by
  unfold moduleKind
  split <;> decide

/-- Reads a namespace or a module with its body, which may be missing. -/
def namespaceDeclaration : Reader Unit := do
  let _ ← nodeOf moduleKind isPlain_moduleKind do
    let w ← wordThat ["namespace", "module"].contains
    require !(← brokenOff g.language .afterOperand)
    literal <|> dottedName
    maybe do
      g.block
      lineBreak g.language .plain
    pure w

/-- Reads another name for a member of a namespace. -/
def importAlias : Reader Unit := node "import_alias" do
  keyword "import"
  let _ ← leaf "identifier" anyWord
  operatorIs "="
  dottedName
  terminator g.language .plain

/-- Reads a declaration of something that exists elsewhere.  The word that says so may be
    repeated. -/
def ambientDeclaration (declaration : Reader Unit) : Reader Unit := node "ambient_declaration" do
  let word : Reader Unit := do
    keyword "declare"
    require !(← brokenOff g.language .afterOperand)
  word
  often word
  declaration
    <|> (do
      keyword "global"
      g.block
      lineBreak g.language .plain)
    <|> (do
      keyword "module"
      mark "."
      let _ ← leaf "property_identifier" anyWord
      mark ":"
      g.type
      terminator g.language .plain)

/-! ## §4. All declarations. -/

/-- Reads a declaration that is not ambient. -/
def plainDeclaration (bare : Bool) : Reader Unit := do
  match (← nextWord) with
  | some "var" => g.variableDeclaration
  | some "let" => g.variableDeclaration
  | some "const" => g.whenTyped g.enumDeclaration <|> g.variableDeclaration
  | some "function" => g.functionDeclaration bare
  | some "async" => g.functionDeclaration bare
  | some "class" => g.classDeclaration bare
  | some "abstract" => g.whenTyped (g.classDeclaration bare)
  | some "interface" => g.whenTyped g.interfaceDeclaration
  | some "type" => g.whenTyped g.aliasDeclaration
  | some "enum" => g.whenTyped g.enumDeclaration
  | some "namespace" => g.whenTyped g.namespaceDeclaration
  | some "module" => g.whenTyped g.namespaceDeclaration
  | some "import" => g.whenTyped g.importAlias
  | some _ => stuck
  | none => g.classDeclaration bare

/-- Reads a declaration; `bare` where it could also have been a value. -/
def declaration (bare : Bool) : Reader Unit := do
  match (← nextWord) with
  | some "declare" => g.whenTyped (g.ambientDeclaration (g.plainDeclaration false))
  | _ => g.plainDeclaration bare

end Rules

end ModuleMove.Grammar
