import ModuleMove.Text.Hidden

/-!
# QUOTED TEXT — texts between quotation marks, on one line

Quotation marks and backslashes are written with a backslash before them, line breaks and tabs
by a letter, and other characters that cannot be seen by their code.
-/

namespace ModuleMove

/-- The hexadecimal digits of a number, without zeros in front. -/
def hexText (n : Nat) : String := String.ofList (Nat.toDigits 16 n)

/-- How a character is written between quotation marks. -/
def quotedChar (c : Char) : String :=
  if c == '"' then "\\\""
  else if c == '\\' then "\\\\"
  else if c == '\n' then "\\n"
  else if c == '\r' then "\\r"
  else if c == '\t' then "\\t"
  else if c.toNat == 0 then "\\0"
  else if isHidden c then "\\u\x7b" ++ hexText c.toNat ++ "\x7d"
  else c.toString

/-- A text between quotation marks. -/
def quoted (s : String) : String :=
  "\"" ++ String.join (s.toList.map quotedChar) ++ "\""

end ModuleMove
