import ModuleMove.Grammar.Target

/-!
# SIGNATURES — parameters and what a function returns

A parameter is a target with modifiers before it and a type and a default value behind it.  Types
and modifiers are read in the typed languages only.  Bodies are read here too, because a function's
body holds the same statements as a block does.
-/

namespace ModuleMove.Grammar

open Reader

/-! ## §1. Modifiers. -/

/-- Whether the name of a member can begin with the character. -/
def beginsMemberName (c : Char) : Bool :=
  isWordStart c || c.isDigit || ['\\', '"', '\'', '[', '#'].contains c

/-- Whether the target of a parameter can begin with the character. -/
def beginsTarget (c : Char) : Bool :=
  isWordStart c || ['\\', '\x7b', '[', '.'].contains c

/-- Reads the word `s` as a modifier of what follows, which has to begin with a character for
    which `follows` holds. -/
def modifier (follows : Char → Bool) (s : String) : Reader Unit := do
  keyword s
  match (← nextChar) with
  | some c => require (follows c)
  | none => stuck

/-- Reads one of the words as a modifier. -/
def modifierIn (follows : Char → Bool) (ss : List String) : Reader Unit :=
  ss.foldr (fun s p => modifier follows s <|> p) stuck

namespace Rules

variable (g : Rules)

/-! ## §2. Parameters. -/

/-- Reads the modifiers of a parameter. -/
def parameterModifiers : Reader Unit := g.whenTyped do
  maybe (modifierIn beginsTarget ["public", "private", "protected"])
  maybe (modifier beginsTarget "override")
  maybe (modifier beginsTarget "readonly")

/-- Reads a parameter. -/
def parameter : Reader Unit := node "required_parameter" do
  maybe (g.whenTyped g.decorators)
  maybe g.parameterModifiers
  g.pattern
  maybe (g.whenTyped (mark "?"))
  maybe g.annotation
  maybe (g.initializer .inner)

/-- Reads the parameters of a function. -/
def parameters : Reader Unit := node "formal_parameters" do
  mark "("
  maybe (commaTerminated g.parameter)
  mark ")"

/-- Reads one type parameter. -/
def typeParameter : Reader Unit := node "type_parameter" do
  maybe (modifier isWordStart "const")
  let _ ← leaf "type_identifier" anyWord
  maybe do
    keyword "extends" <|> mark ":"
    g.type
  maybe do
    operatorIs "="
    g.type

/-- Reads type parameters in angle brackets. -/
def typeParameters : Reader Unit := g.whenTyped <| node "type_parameters" do
  mark "<"
  commaTerminated g.typeParameter
  mark ">"

/-! ## §3. What is returned. -/

/-- Reads `name is type`. -/
def typePredicate : Reader Unit := node "type_predicate" do
  let _ ← leaf "identifier" anyWord
  keyword "is"
  g.type

/-- Reads `asserts name` or `asserts name is type`. -/
def assertion : Reader Unit := node "asserts" do
  keyword "asserts"
  g.typePredicate <|> (do let _ ← leaf "identifier" anyWord)

/-- Reads what stands after the colon or arrow of a signature. -/
def returned : Reader Unit := g.assertion <|> g.typePredicate <|> g.type

/-- Reads the type that a function returns. -/
def returnType : Reader Unit := g.whenTyped <| node "type_annotation" do
  mark ":"
  g.returned

/-- Reads type parameters, parameters and what is returned. -/
def signature : Reader Unit := do
  maybe g.typeParameters
  g.parameters
  maybe g.returnType

/-! ## §4. Bodies. -/

/-- Reads statements in braces. -/
def block : Reader Unit := node "statement_block" do
  leftBrace
  often g.statement
  rightBrace

end Rules

end ModuleMove.Grammar
