import ModuleMove.Grammar.Member

/-!
# MARKUP — elements that stand for values

Between an opening and a closing tag everything is text except elements and values in braces.
The two tags need not have the same name.
-/

namespace ModuleMove.Grammar

open Cursor Reader

/-! ## §1. Names and texts. -/

/-- The text after the name of markup that begins here, if one does: a word in which hyphens may
    stand. -/
def pastMarkupName? : List Char → Option (List Char)
  | x :: r =>
    if isWordStart x then some ((x :: r).dropWhile fun y => isWordPart y || y == '-') else none
  | [] => none

/-- Reads a name of markup. -/
def markupName : Reader Unit := leaf "identifier" (readUpTo pastMarkupName?)

/-- The text after a reference to a character such as `&amp;`, without its `&`, if one begins
    here. -/
def pastCharacterReference? (cs : List Char) : Option (List Char) :=
  match cs with
  | '#' :: x :: r =>
    if x == 'x' || x == 'X' then closed (r.takeWhile isHexDigit).length 6 r
    else closed ((x :: r).takeWhile Char.isDigit).length 5 (x :: r)
  | cs => closed (cs.takeWhile isLetter).length 30 cs
where
  /-- The rest after `n` characters and a `;`, where `n` is neither zero nor beyond the limit. -/
  closed (n limit : Nat) (cs : List Char) : Option (List Char) :=
    if n == 0 || limit < n then none
    else
      match cs.drop n with
      | ';' :: r => some r
      | _ => none

/-- Reads a reference to a character. -/
def characterReference : Reader Unit := readUpTo fun cs =>
  match cs with
  | '&' :: r => pastCharacterReference? r
  | _ => none

/-- The text after the value of an attribute of which the opening quote has been read.  An `&` that
    `#` or a letter follows begins a reference; any other takes the next character with it, even a
    quote. -/
def pastAttribute? (q : Char) (cs : List Char) : Option (List Char) :=
  go cs.length cs
where
  /-- The same, in at most `fuel` steps. -/
  go : Nat → List Char → Option (List Char)
    | fuel + 1, '&' :: x :: r =>
      if x == '#' || isLetter x then
        match pastCharacterReference? (x :: r) with
        | some after => go fuel after
        | none => none
      else go fuel r
    | fuel + 1, x :: r => if x == q then some r else if x == '&' then none else go fuel r
    | _, _ => none

/-- Reads the text of an attribute between quotes. -/
def attributeText : Reader Unit := do
  overBlanks
  readUpTo fun cs =>
    match cs with
    | q :: r => if q == '\'' || q == '"' then pastAttribute? q r else none
    | [] => none

namespace Rules

variable (g : Rules)

/-! ## §2. Tags. -/

/-- Reads the name of an element: `a`, `a.b` or `a:b`. -/
def elementName : Reader Unit := do
  markupName
  often do
    mark "." <|> mark ":"
    markupName

/-- Reads values in braces, which may be missing or spread. -/
def inserted : Reader Unit := node "jsx_expression" do
  leftBrace
  maybe <|
    node "spread_element" (do
      mark "..."
      g.value .inner)
    <|> g.sequence .inner
  rightBrace

/-- Reads an attribute. -/
def elementAttribute : Reader Unit :=
  g.inserted
  <|> node "jsx_attribute" (do
    markupName
    maybe do
      mark ":"
      markupName
    maybe do
      mark "="
      attributeText <|> g.inserted <|> g.element)

/-! ## §3. Elements. -/

/-- Steps over text up to the next character that can end it. -/
def markupText : Reader Unit :=
  .skip (Cursor.dropWhile fun x => !(['<', '>', '\x7b', '\x7d', '&'].contains x))
    (leadsTo_dropWhile _)

/-- Reads something between an opening and a closing tag. -/
def elementChild : Reader Unit := do
  markupText
  characterReference
    <|> g.inserted
    <|> (do
      require !(← sees (mark "</"))
      g.element)

/-- Reads an element. -/
def readElement : Reader Unit := node "jsx_element" do
  mark "<"
  let named ← optional do
    elementName
    maybe g.typeArguments
    often g.elementAttribute
  (do
    require named.isSome
    mark "/>")
  <|> (do
    mark ">"
    often g.elementChild
    markupText
    exactly "</"
    maybe elementName
    mark ">")

end Rules

end ModuleMove.Grammar
