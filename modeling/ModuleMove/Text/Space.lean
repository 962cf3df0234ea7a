import ModuleMove.Text.Pieces

/-!
# SPACE — blanks at the end of a text, and lines

Blanks are the characters with the property White_Space.  A line ends with a line feed, and a
carriage return right before it belongs to the end of the line.
-/

namespace ModuleMove

/-- Whether a character is a blank. -/
def isSpace (c : Char) : Bool :=
  let n := c.toNat
  (9 ≤ n && n ≤ 13) || n == 0x20 || n == 0x85 || n == 0xA0 || n == 0x1680 ||
    (0x2000 ≤ n && n ≤ 0x200A) || n == 0x2028 || n == 0x2029 || n == 0x202F || n == 0x205F ||
    n == 0x3000

/-- A text without the blanks at its end. -/
def withoutEndSpace (s : String) : String :=
  String.ofList (s.toList.reverse.dropWhile isSpace).reverse

/-- A line without the carriage return at its end. -/
def withoutReturn (s : String) : String := (beforeEnd? "\r" s).getD s

/-- The lines of a text, of which the last need not end. -/
def linesOf (s : String) : List String :=
  match (cutText '\n' s).reverse with
  | [] => []
  | last :: ls => (ls.map withoutReturn).reverse ++ (if last.isEmpty then [] else [last])

end ModuleMove
