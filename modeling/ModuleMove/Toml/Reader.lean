import ModuleMove.Grammar.Lexeme
import ModuleMove.Toml.Value

/-!
# READING TOML — from a text to the values that it holds

A document is read line by line.  Lines end in a line feed, with or without a carriage return
before it; values in brackets may go on over several lines, values in braces may not.
-/

namespace ModuleMove.Toml

open Grammar

/-! ## §1. Characters. -/

/-- A character for which `p` holds. -/
def charThat (p : Char → Bool) : Reader Char :=
  .step (fun c =>
      match c.rest with
      | x :: _ => if p x then some (x, c.advance 1) else none
      | [] => none)
    fun c _ n h => by
      split at h
      · simp only [Option.ite_none_right_eq_some, Option.some.injEq, Prod.mk.injEq] at h
        rw [← h.2.2]
        exact Cursor.leadsTo_advance 1 c
      · cases h

/-- Characters for which `p` holds, as many as there are. -/
def run (p : Char → Bool) : Reader (List Char) := do
  let cs ← .look fun c => c.rest.takeWhile p
  .skip (Cursor.dropWhile p) (Cursor.leadsTo_dropWhile p)
  pure cs

/-- At least one character for which `p` holds, and as many as there are. -/
def run1 (p : Char → Bool) : Reader (List Char) := do
  let cs ← run p
  Reader.require (!cs.isEmpty)
  pure cs

/-- Whether a character may stand in comments and texts: all but control characters, and the
    tab. -/
def isPlain (c : Char) : Bool := c == '\t' || (c.toNat ≥ 32 && c.toNat != 127)

/-- Blanks within a line. -/
def blanks : Reader Unit := do let _ ← run fun c => c == ' ' || c == '\t'

/-- The end of a line. -/
def lineBreak : Reader Unit := do
  let _ ← exactly "\n" <|> exactly "\r\n"

/-- A comment, up to the end of its line. -/
def comment : Reader Unit := do
  let _ ← exactly "#"
  let _ ← run isPlain

/-- The end of the text. -/
def endOfText : Reader Unit := do
  Reader.require (← .look fun c => c.rest.isEmpty)

/-- What may stand behind the content of a line. -/
def lineRest : Reader Unit := do
  blanks
  let _ ← Reader.optional comment
  lineBreak <|> endOfText

/-- Blanks, comments and line ends between values in brackets. -/
def gap : Reader Unit := do
  let _ ← Reader.many (lineBreak <|> comment <|> do let _ ← run1 fun c => c == ' ' || c == '\t')

/-! ## §2. Texts. -/

/-- A number of so many hexadecimal digits. -/
def hexNumber : Nat → Nat → Reader Nat
  | 0, n => pure n
  | k + 1, n => do
    let c ← charThat isHexDigit
    hexNumber k (16 * n + (if c.isDigit then c.toNat - 48 else c.toLower.toNat - 87))

/-- The character with a code of so many hexadecimal digits. -/
def coded (digits : Nat) : Reader (List Char) := do
  let n ← hexNumber digits 0
  Reader.require (n < 0xD800 || (0xDFFF < n && n < 0x110000))
  pure [Char.ofNat n]

/-- A character written with a backslash. -/
def escape : Reader (List Char) := do
  let _ ← exactly "\\"
  let c ← charThat fun _ => true
  match c with
  | 'b' => pure ['\x08']
  | 't' => pure ['\t']
  | 'n' => pure ['\n']
  | 'f' => pure ['\x0c']
  | 'r' => pure ['\r']
  | '"' => pure ['"']
  | '\\' => pure ['\\']
  | 'u' => coded 4
  | 'U' => coded 8
  | _ => Reader.stuck

/-- A backslash at the end of a line hides the line end and all blanks after it. -/
def hiddenBreak : Reader (List Char) := do
  let _ ← exactly "\\"
  blanks
  lineBreak
  let _ ← Reader.many (lineBreak <|> do let _ ← run1 fun c => c == ' ' || c == '\t')
  pure []

/-- Quotes in a row. -/
def quotes (q : Char) (least most : Nat) : Reader Nat := do
  let n := (← run (· == q)).length
  Reader.require (least ≤ n && n ≤ most)
  pure n

/-- A text over several lines between triple quotes, of which up to two more may stand at the
    end of the text. -/
def longText (q : Char) (piece : Reader (List Char)) : Reader String := do
  let _ ← exactly (String.ofList [q, q, q])
  let _ ← Reader.optional lineBreak
  let pieces ← Reader.many (piece <|> (do lineBreak; pure ['\n']) <|>
    (do pure (List.replicate (← quotes q 1 2) q)))
  let n ← quotes q 3 5
  pure (String.ofList (pieces.flatten ++ List.replicate (n - 3) q))

/-- A text on one line between single quotes. -/
def shortText (q : Char) (piece : Reader (List Char)) : Reader String := do
  let _ ← exactly (String.ofList [q])
  let pieces ← Reader.many piece
  let _ ← exactly (String.ofList [q])
  pure (String.ofList pieces.flatten)

/-- Characters that stand for themselves between double quotes. -/
def doubleQuoted : Reader (List Char) := run1 fun c => isPlain c && c != '"' && c != '\\'

/-- Characters that stand for themselves between single quotes. -/
def singleQuoted : Reader (List Char) := run1 fun c => isPlain c && c != '\''

/-- A text on one line. -/
def lineText : Reader String :=
  shortText '"' (doubleQuoted <|> escape) <|> shortText '\'' singleQuoted

/-- A text. -/
def anyText : Reader String :=
  longText '"' (doubleQuoted <|> hiddenBreak <|> escape) <|> longText '\'' singleQuoted <|>
    (do
      Reader.require (!(← Reader.sees (exactly "\"\"\"" <|> exactly "'''")))
      lineText)

/-! ## §3. Numbers. -/

/-- Digits, with single underscores between them. -/
def digits (p : Char → Bool) : Reader (List Char) := do
  let c ← charThat p
  let more ← Reader.many (do let _ ← Reader.optional (exactly "_"); charThat p)
  pure (c :: more)

/-- Digits without a zero in front. -/
def plainDigits : Reader (List Char) := do
  let zero ← Reader.optional (exactly "0")
  if zero.isSome then pure ['0'] else digits Char.isDigit

/-- The number that digits stand for. -/
def numberOf (base : Nat) (ds : List Char) : Nat :=
  ds.foldl (fun n c => base * n + (if c.isDigit then c.toNat - 48 else c.toLower.toNat - 87)) 0

/-- A sign, and whether it is a minus. -/
def sign : Reader Bool := do
  let c ← Reader.optional (charThat fun c => c == '+' || c == '-')
  pure (c == some '-')

/-- An integer that fits into 64 bits. -/
def bounded (n : Int) : Reader Value := do
  Reader.require (Int64.minValue.toInt ≤ n && n ≤ Int64.maxValue.toInt)
  pure (.integer n)

/-- An integer in a base other than ten. -/
def based (mark : String) (base : Nat) (p : Char → Bool) : Reader Value := do
  let _ ← exactly mark
  bounded (numberOf base (← digits p))

/-- An integer. -/
def integer : Reader Value :=
  based "0x" 16 isHexDigit <|> based "0o" 8 (fun c => '0' ≤ c && c ≤ '7') <|>
    based "0b" 2 (fun c => c == '0' || c == '1') <|>
    (do
      let minus ← sign
      let n := numberOf 10 (← plainDigits)
      bounded (if minus then -(n : Int) else n))

/-- Whether `mantissa` times ten to the power of `exponent` is too large for a number of 64 bits:
    it is at least halfway beyond the largest one. -/
def tooLarge (mantissa : Nat) (exponent : Int) : Bool :=
  let size := (Nat.toDigits 10 mantissa).length + exponent
  if mantissa = 0 || size < 300 then false
  else if 320 < size then true
  else
    let limit := Nat.pow 2 1024 - Nat.pow 2 970
    if 0 ≤ exponent then limit ≤ mantissa * Nat.pow 10 exponent.toNat
    else limit * Nat.pow 10 (-exponent).toNat ≤ mantissa

/-- An exponent. -/
def exponent : Reader Int := do
  let _ ← charThat fun c => c == 'e' || c == 'E'
  let minus ← sign
  let n := numberOf 10 (← digits Char.isDigit)
  pure (if minus then -(n : Int) else n)

/-- A number with a fraction or an exponent. -/
def decimal : Reader Value := do
  let minus ← sign
  let whole ← plainDigits
  let fraction ← Reader.optional (do let _ ← exactly "."; digits Char.isDigit)
  let power ← Reader.optional exponent
  Reader.require (fraction.isSome || power.isSome)
  let behind := fraction.getD []
  Reader.require (minus ||
    !tooLarge (numberOf 10 (whole ++ behind)) (power.getD 0 - (behind.length : Int)))
  pure .real

/-- An infinity, or no number. -/
def special : Reader Value := do
  let _ ← sign
  let _ ← exactly "inf" <|> exactly "nan"
  pure .real

/-! ## §4. Dates and times. -/

/-- A number of so many digits within bounds. -/
def part (size least most : Nat) : Reader Nat := do
  let n ← go size 0
  Reader.require (least ≤ n && n ≤ most)
  pure n
where
  /-- The number, after the digits that make up `n`. -/
  go : Nat → Nat → Reader Nat
    | 0, n => pure n
    | k + 1, n => do go k (10 * n + ((← charThat Char.isDigit).toNat - 48))

/-- The number of days of a month. -/
def daysIn (year month : Nat) : Nat :=
  if month = 2 then
    if year % 4 = 0 && (year % 100 != 0 || year % 400 = 0) then 29 else 28
  else if [4, 6, 9, 11].contains month then 30
  else 31

/-- A date. -/
def date : Reader Unit := do
  let year ← part 4 0 9999
  let _ ← exactly "-"
  let month ← part 2 1 12
  let _ ← exactly "-"
  let _ ← part 2 1 (daysIn year month)

/-- A time of day. -/
def time : Reader Unit := do
  let _ ← part 2 0 23
  let _ ← exactly ":"
  let _ ← part 2 0 59
  let _ ← exactly ":"
  let _ ← part 2 0 60
  let _ ← Reader.optional (do let _ ← exactly "."; run1 Char.isDigit)

/-- What a time is ahead of or behind the common time. -/
def timeOffset : Reader Unit :=
  (do let _ ← charThat fun c => c == 'Z' || c == 'z') <|>
    (do
      let _ ← charThat fun c => c == '+' || c == '-'
      let _ ← part 2 0 23
      let _ ← exactly ":"
      let _ ← part 2 0 59)

/-- A date, a time, or both. -/
def moment : Reader Value := do
  (do
    date
    let _ ← Reader.optional (do
      let _ ← charThat fun c => c == 'T' || c == 't' || c == ' '
      time
      let _ ← Reader.optional timeOffset)) <|> time
  pure .moment

/-! ## §5. Keys and values. -/

/-- A key without dots. -/
def simpleKey : Reader String :=
  (do pure (String.ofList (← run1 fun c => c.isAlphanum || c == '-' || c == '_'))) <|> lineText

/-- A dotted key: the keys on the way, and the last one.  There are at most 79. -/
def dottedKey : Reader (List String × String) := do
  blanks
  let first ← simpleKey
  blanks
  let more ← Reader.many (do
    let _ ← exactly "."
    blanks
    let k ← simpleKey
    blanks
    pure k)
  Reader.require (more.length < 79)
  let all := first :: more
  pure (all.dropLast, more.getLast?.getD first)

/-- Items with a comma between each two. -/
def commaList {α : Type} (item : Reader α) : Reader (List α) := do
  match ← Reader.optional item with
  | none => pure []
  | some a => do pure (a :: (← Reader.many (do let _ ← exactly ","; item)))

/-- A value without values inside. -/
def scalar : Reader Value :=
  (do pure (.text (← anyText))) <|> moment <|> decimal <|> special <|> integer <|>
    (do let _ ← exactly "true"; pure (.truth true)) <|>
    (do let _ ← exactly "false"; pure (.truth false))

/-- Values in brackets. -/
def listOf (value : Reader Value) : Reader Value := do
  let _ ← exactly "["
  let vs ← commaList (do gap; let v ← value; gap; pure v)
  let _ ← if vs.isEmpty then pure none else Reader.optional (exactly ",")
  gap
  let _ ← exactly "]"
  pure (.list vs)

/-- A key with its value. -/
def pairOf (value : Reader Value) : Reader (List String × String × Value) := do
  let (ways, key) ← dottedKey
  let _ ← exactly "="
  blanks
  pure (ways, key, ← value)

/-- Keys with their values in braces. -/
def tableOf (value : Reader Value) : Reader Value := do
  let _ ← exactly "\x7b"
  blanks
  let ps ← commaList (do let p ← pairOf value; blanks; pure p)
  blanks
  let _ ← exactly "\x7d"
  match ps.foldlM (fun es (ways, key, v) => (assign ways key v .closed es).map (·.2)) [] with
  | some es => pure (.table .closed es)
  | none => Reader.stuck

/-- A value with at most so many brackets and braces around each value inside. -/
def value : Nat → Reader Value
  | 0 => scalar
  | depth + 1 => listOf (value depth) <|> tableOf (value depth) <|> scalar

/-- The number of brackets and braces that may stand around a value. -/
def depthLimit : Nat := 79

/-! ## §6. Documents. -/

/-- A line that says something, or nothing. -/
def line : Reader (Option Line) := do
  blanks
  (do
    let _ ← exactly "[["
    let (ways, key) ← dottedKey
    let _ ← exactly "]]"
    lineRest
    pure (some (.repeated ways key))) <|>
  (do
    let _ ← exactly "["
    let (ways, key) ← dottedKey
    let _ ← exactly "]"
    lineRest
    pure (some (.header ways key))) <|>
  (do
    let (ways, key, v) ← pairOf (value depthLimit)
    lineRest
    pure (some (.pair ways key v))) <|>
  (do
    lineRest
    pure none)

/-- The lines of a text. -/
def linesOf (s : String) : Option (List Line) :=
  let reader : Reader (List (Option Line)) := do
    let _ ← Reader.optional (exactly "\uFEFF")
    let ls ← Reader.many line
    endOfText
    pure ls
  match reader.read (Cursor.ofText s) with
  | .found ls _ _ _ => some (ls.filterMap id)
  | .stuck _ => none

/-- The document that a text holds, if it is one. -/
def document? (s : String) : Option Entries := linesOf s >>= ofLines [] []

end ModuleMove.Toml
