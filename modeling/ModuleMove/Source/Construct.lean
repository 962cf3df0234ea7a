/-!
# CONSTRUCTS — the parts of a syntax tree that matter to references and names

Grammars name the nodes of their syntax trees.  Most of them only hold other nodes; those that
say something about modules or bindings are told apart here.
-/

namespace ModuleMove

/-- What a node of a syntax tree is. -/
inductive Construct where
  /-- A whole file. -/
  | program
  /-- An import statement. -/
  | importStatement
  /-- The clause of an import that requires a module. -/
  | importRequireClause
  /-- An export statement. -/
  | exportStatement
  /-- The names of an export statement. -/
  | exportClause
  /-- One of the names of an export statement. -/
  | exportSpecifier
  /-- A name for a whole module in an export statement. -/
  | namespaceExport
  /-- The star of an export statement. -/
  | wildcard
  /-- A call. -/
  | callExpression
  /-- The keyword of a loading call. -/
  | importKeyword
  /-- A text in quotes. -/
  | stringLiteral
  /-- The declaration of one name. -/
  | declaration
  /-- The declaration of variables. -/
  | variableDeclaration
  /-- One of the variables of a declaration. -/
  | variableDeclarator
  /-- A name. -/
  | identifier
  /-- A target that takes an object apart. -/
  | objectPattern
  /-- A target that takes an array apart. -/
  | arrayPattern
  /-- A key with a target. -/
  | pairPattern
  /-- A target with a default value. -/
  | assignmentPattern
  /-- A target for all that is left. -/
  | restPattern
  /-- A key that is its own target. -/
  | shorthandPattern
  /-- Anything else. -/
  | other
  deriving DecidableEq, Repr, Inhabited

namespace Construct

/-- What a node of the given name is. -/
def ofName : String → Construct
  | "program" => program
  | "import_statement" => importStatement
  | "import_require_clause" => importRequireClause
  | "export_statement" => exportStatement
  | "export_clause" => exportClause
  | "export_specifier" => exportSpecifier
  | "namespace_export" => namespaceExport
  | "*" => wildcard
  | "call_expression" => callExpression
  | "import" => importKeyword
  | "string" => stringLiteral
  | "function_declaration" => declaration
  | "generator_function_declaration" => declaration
  | "class_declaration" => declaration
  | "abstract_class_declaration" => declaration
  | "interface_declaration" => declaration
  | "type_alias_declaration" => declaration
  | "enum_declaration" => declaration
  | "lexical_declaration" => variableDeclaration
  | "variable_declaration" => variableDeclaration
  | "variable_declarator" => variableDeclarator
  | "identifier" => identifier
  | "object_pattern" => objectPattern
  | "array_pattern" => arrayPattern
  | "pair_pattern" => pairPattern
  | "assignment_pattern" => assignmentPattern
  | "object_assignment_pattern" => assignmentPattern
  | "rest_pattern" => restPattern
  | "shorthand_property_identifier_pattern" => shorthandPattern
  | _ => other

/-- Whether what stands directly inside is at the top level of the file. -/
def keepsTopLevel : Construct → Bool
  | program => true
  | exportStatement => true
  | _ => false

end Construct

end ModuleMove
