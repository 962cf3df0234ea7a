/-!
# DATA — answers in a form that other programs read

An answer is a tree of texts, numbers, lists and records, and is written as JSON: on one line
without blanks, or on many lines with two blanks for each level.  The fields of a record keep
their order.
-/

namespace ModuleMove

/-- An answer for other programs. -/
inductive Data where
  /-- Nothing. -/
  | nothing
  /-- A truth value. -/
  | truth (value : Bool)
  /-- A number. -/
  | number (value : Nat)
  /-- A text. -/
  | text (value : String)
  /-- Answers in a row. -/
  | list (values : List Data)
  /-- Answers under names. -/
  | record (fields : List (String × Data))
  deriving Inhabited

namespace Data

/-! ## §1. Texts. -/

/-- A number below 65536 as four hexadecimal digits. -/
def fourDigits (n : Nat) : List Char :=
  [n / 4096, n / 256, n / 16, n].map fun d => Nat.digitChar (d % 16)

/-- How a character is written in a text. -/
def escaped (c : Char) : List Char :=
  if c == '"' then ['\\', '"']
  else if c == '\\' then ['\\', '\\']
  else if c == '\n' then ['\\', 'n']
  else if c == '\r' then ['\\', 'r']
  else if c == '\t' then ['\\', 't']
  else if c.toNat == 8 then ['\\', 'b']
  else if c.toNat == 12 then ['\\', 'f']
  else if c.toNat < 32 then '\\' :: 'u' :: fourDigits c.toNat
  else [c]

/-- A text between quotation marks. -/
def quoteText (s : String) : String :=
  "\"" ++ String.ofList (s.toList.flatMap escaped) ++ "\""

/-! ## §2. On one line. -/

/-- The sign that opens a record. -/
def openSign : String := "\x7b"

/-- The sign that closes a record. -/
def closeSign : String := "\x7d"

mutual

/-- An answer on one line. -/
def compact : Data → String
  | nothing => "null"
  | truth b => if b then "true" else "false"
  | number n => toString n
  | text s => quoteText s
  | list [] => "[]"
  | list (v :: vs) => "[" ++ compact v ++ compactRest vs ++ "]"
  | record [] => openSign ++ closeSign
  | record ((k, v) :: fs) =>
    openSign ++ quoteText k ++ ":" ++ compact v ++ compactFields fs ++ closeSign

/-- The answers of a row after the first. -/
def compactRest : List Data → String
  | [] => ""
  | v :: vs => "," ++ compact v ++ compactRest vs

/-- The fields of a record after the first. -/
def compactFields : List (String × Data) → String
  | [] => ""
  | (k, v) :: fs => "," ++ quoteText k ++ ":" ++ compact v ++ compactFields fs

end

/-! ## §3. On many lines. -/

/-- A new line at the given level. -/
def newLine (level : Nat) : String := "\n" ++ String.ofList (List.replicate (2 * level) ' ')

mutual

/-- An answer on many lines that stands at the given level. -/
def indented (level : Nat) : Data → String
  | nothing => "null"
  | truth b => if b then "true" else "false"
  | number n => toString n
  | text s => quoteText s
  | list [] => "[]"
  | list (v :: vs) =>
    "[" ++ newLine (level + 1) ++ indented (level + 1) v ++ indentedRest (level + 1) vs ++
      newLine level ++ "]"
  | record [] => openSign ++ closeSign
  | record ((k, v) :: fs) =>
    openSign ++ newLine (level + 1) ++ quoteText k ++ ": " ++ indented (level + 1) v ++
      indentedFields (level + 1) fs ++ newLine level ++ closeSign

/-- The answers of a row after the first. -/
def indentedRest (level : Nat) : List Data → String
  | [] => ""
  | v :: vs => "," ++ newLine level ++ indented level v ++ indentedRest level vs

/-- The fields of a record after the first. -/
def indentedFields (level : Nat) : List (String × Data) → String
  | [] => ""
  | (k, v) :: fs =>
    "," ++ newLine level ++ quoteText k ++ ": " ++ indented level v ++ indentedFields level fs

end

/-- A list of texts. -/
def texts (ss : List String) : Data := list (ss.map text)

/-- An answer that may be absent. -/
def optional {α : Type} (f : α → Data) : Option α → Data
  | none => nothing
  | some a => f a

end Data

end ModuleMove
