import ModuleMove.Grammar.Rules

/-!
# CALLS — arguments and decorators

A call loads a module when its callee is the word `import` or the plain name `require` and its
first argument is a string literal.  A comment before the first argument takes its place, so the
comments among arguments make nodes.
-/

namespace ModuleMove.Grammar

open Cursor Reader

/-! ## §1. Comments. -/

/-- Reads a comment that makes a node. -/
def comment : Reader Unit := do
  .skip pastSpace leadsTo_pastSpace
  leafHere true (fun _ => "comment") (fun _ => Eq.refl true)
    (.step (fun c => c.pastComment?.map ((), ·)) fun _ _ _ h =>
      leadsTo_pastComment? (by simpa using h))
    <|> leafHere true (fun _ => "html_comment") (fun _ => Eq.refl true)
      (.step (fun c => c.pastMarkupComment?.map ((), ·)) fun _ _ _ h =>
        leadsTo_pastMarkupComment? (by simpa using h))

namespace Rules

variable (g : Rules)

/-! ## §2. Arguments. -/

/-- Reads `...value` or a value. -/
def spreadOrValue : Reader Unit :=
  node "spread_element" (do
    mark "..."
    g.value .inner)
  <|> g.value .inner

/-- Reads an argument that may be missing, with the comments before it. -/
def argument : Reader Unit := do
  often comment
  maybe g.spreadOrValue

/-- Reads the arguments of a call. -/
def arguments : Reader Unit := do
  mark "("
  let _ ← commaSeparated g.argument
  mark ")"

/-- Reads types in angle brackets, the arguments of a generic type or function. -/
def typeArguments : Reader Unit := g.whenTyped <| node "type_arguments" do
  mark "<"
  commaTerminated g.type
  mark ">"

/-- What has been read becomes the callee of a call, of which the arguments follow. -/
def called : Growth Shape := .call .value false (pure ()) (pure ()) g.arguments

/-- What has been read becomes the callee of a call, of which types and the arguments follow. -/
def calledWithTypes : Growth Shape := .call .value false (pure ()) g.typeArguments g.arguments

/-! ## §3. Decorators. -/

/-- Reads a decorator's name with its members and, if it is called, the arguments. -/
def decoratorBody : Reader Unit := do
  let name : Reader Shape := do
    let _ ← leaf "identifier" anyWord
    pure .name
  let _ ← grown name fun s _ =>
    if s == .value then []
    else [.node (some "object") "member_expression" (do
        mark "."
        let _ ← leaf "property_identifier" anyWord
        pure .place),
      g.called, g.calledWithTypes]

/-- Reads a decorator. -/
def decorator : Reader Unit := node "decorator" do
  mark "@"
  g.decoratorBody <|> g.whenTyped (node "parenthesized_expression" do
    mark "("
    g.decoratorBody
    mark ")")

/-- Reads any number of decorators, and tells whether there are some. -/
def decorators : Reader Bool := do
  let ds ← many g.decorator
  pure !ds.isEmpty

end Rules

end ModuleMove.Grammar
