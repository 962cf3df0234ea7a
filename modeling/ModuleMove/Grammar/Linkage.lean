import ModuleMove.Grammar.Declaration

/-!
# LINKAGE — import and export statements

These are the statements that the rest of the program is about.  What an export statement
exports from another module is told by the names in it.
-/

namespace ModuleMove.Grammar

open Reader

/-! ## §1. Names. -/

/-- Reads a name by which a module exports something: a word or a string literal. -/
def exportedName : Reader Unit := (do let _ ← leaf "identifier" anyWord) <|> literal

namespace Rules

variable (g : Rules)

/-- Reads a word that says that only a type is meant. -/
def typeOnly : Reader Unit := g.whenTyped (keyword "type" <|> keyword "typeof")

/-- Reads `from` and the module. -/
def fromModule : Reader Unit := do
  keyword "from"
  sourceLiteral

/-! ## §2. Imports. -/

/-- Reads one imported name. -/
def importSpecifier : Reader Unit := node "import_specifier" <|
  (do
    g.typeOnly
    let w ← nextWord
    require (w != some "as")
    named)
  <|> named
where
  /-- A name, or a name and its local name. -/
  named : Reader Unit :=
    (do
      asField "name" exportedName
      keyword "as"
      asField "alias" word)
    <|> asField "name" word
  /-- A word. -/
  word : Reader Unit := do
    let _ ← leaf "identifier" anyWord

/-- Reads imported names in braces. -/
def namedImports : Reader Unit := node "named_imports" do
  leftBrace
  maybe (commaSeparated g.importSpecifier)
  maybe (mark ",")
  rightBrace

/-- Reads `* as name`. -/
def namespaceImport : Reader Unit := node "namespace_import" do
  mark "*"
  keyword "as"
  let _ ← leaf "identifier" anyWord

/-- Reads what is imported. -/
def importClause : Reader Unit := node "import_clause" <|
  namespaceImport
  <|> g.namedImports
  <|> (do
    let _ ← leaf "identifier" anyWord
    maybe do
      mark ","
      namespaceImport <|> g.namedImports)

/-- Reads `name = require('…')`. -/
def requireClause : Reader Unit := g.whenTyped <| node "import_require_clause" do
  let _ ← leaf "identifier" anyWord
  operatorIs "="
  keyword "require"
  mark "("
  sourceLiteral
  mark ")"

/-- Reads what follows the word `import`, up to the module. -/
def importSource : Reader Unit :=
  sourceLiteral
  <|> (do
    g.typeOnly
    clause <|> sourceLiteral)
  <|> clause
where
  /-- Names and the module that they come from. -/
  clause : Reader Unit :=
    (do
      g.importClause
      fromModule)
    <|> g.requireClause

/-- Reads the attributes of an import. -/
def importAttributes : Reader Unit := node "import_attribute" do
  let _ ← wordThat fun w => w == "with" || (g.language.typed && w == "assert")
  let s ← g.objectLiteral
  require s.isValue

/-- Reads an import statement. -/
def importStatement : Reader Unit := node "import_statement" do
  keyword "import"
  g.importSource
  maybe g.importAttributes
  terminator g.language .plain

/-! ## §3. Exports. -/

/-- Reads one exported name. -/
def exportSpecifier : Reader Unit := node "export_specifier" do
  maybe g.typeOnly
  asField "name" exportedName
  maybe do
    keyword "as"
    asField "alias" exportedName

/-- Reads exported names in braces. -/
def exportClause : Reader Unit := node "export_clause" do
  leftBrace
  maybe (commaSeparated g.exportSpecifier)
  maybe (mark ",")
  rightBrace

/-- Reads names exported from a module, or local names exported. -/
def exportNames : Reader Unit := do
  (do
    piece "*" (mark "*")
    fromModule)
  <|> (do
    node "namespace_export" do
      mark "*"
      keyword "as"
      exportedName
    fromModule)
  <|> (do
    maybe (g.whenTyped (keyword "type"))
    g.exportClause
    maybe fromModule)
  terminator g.language .plain

/-- Reads the exports that only the typed languages have. -/
def exportAssignment : Reader Unit := g.whenTyped <|
  (do
    operatorIs "="
    g.value .last
    terminator g.language .afterOperand)
  <|> (do
    keyword "as"
    keyword "namespace"
    let _ ← leaf "identifier" anyWord
    terminator g.language .plain)

/-- Reads a default export. -/
def exportDefault : Reader Unit := do
  keyword "default"
  g.declaration true
    <|> (do
      g.value .last
      terminator g.language .afterOperand)

/-- Reads an export statement. -/
def exportStatement : Reader Unit := exportNode do
  let decorated ← g.decorators
  keyword "export"
  require !(← brokenOff g.language .afterOperand)
  if decorated then g.exportDefault <|> g.declaration false
  else g.exportNames <|> g.exportAssignment <|> g.exportDefault <|> g.declaration false

end Rules

end ModuleMove.Grammar
