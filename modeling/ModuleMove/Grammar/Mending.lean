import ModuleMove.Grammar.Statement
import ModuleMove.Text.Bytes

/-!
# MENDING — where a text does not follow the grammar

A text that cannot be read is blamed on the place at which it is mended most cheaply: either a
lexeme is put in before the first one that cannot be read, or a run of lexemes around that one is
left out.  Every mending has a price, and what is left out costs more the longer it is.
-/

namespace ModuleMove.Grammar

/-! ## §1. Lexemes. -/

/-- A lexeme and where it stands. -/
structure Lexeme where
  /-- The bytes that it covers. -/
  span : Span
  /-- Its characters. -/
  text : String
  deriving Repr

/-- The rest of a text after a template of which the opening quote has been read, if the template
    is closed. -/
def pastTemplate? : List Char → Option (List Char)
  | '\\' :: _ :: r => pastTemplate? r
  | c :: r => if c == '\x60' then some r else pastTemplate? r
  | [] => none

/-- The place after the lexeme that begins here. -/
def Cursor.pastLexeme (c : Cursor) : Cursor :=
  match c.word? with
  | some (_, next) => next
  | none =>
    match (literal <|> number).read c with
    | .found _ _ next _ => next
    | .stuck _ =>
      match c.rest with
      | [] => c
      | x :: r =>
        if x == '\x60' then c.upTo ((pastTemplate? r).getD r)
        else if x == '\'' || x == '"' then c.upTo (r.dropWhile (· != '\n'))
        else
          match operatorAt c.rest with
          | some s => c.advance s.length
          | none => c.advance 1

/-- The lexemes of a text. -/
def lexemesOf (s : String) : List Lexeme :=
  go s.length (Cursor.ofText s)
where
  /-- At most `fuel` lexemes. -/
  go : Nat → Cursor → List Lexeme
    | 0, _ => []
    | fuel + 1, c =>
      let here := c.pastBlanks
      if here.rest.isEmpty then []
      else
        let next := here.pastLexeme
        let text := here.rest.take (here.rest.length - next.rest.length)
        ⟨⟨here.offset, next.offset⟩, String.ofList text⟩ :: go fuel next

/-- The bracket that a closing bracket closes. -/
def openerOf? : String → Option String
  | ")" => some "("
  | "]" => some "["
  | "\x7d" => some "\x7b"
  | _ => none

/-- Whether a lexeme is an opening bracket. -/
def opens (t : String) : Bool := t == "(" || t == "[" || t == "\x7b"

/-- Takes one more lexeme onto a stack of them; a closing bracket makes one piece of all that
    stands between it and its opening bracket, if that is the last one open. -/
def shift (stack : List String) (t : String) : List String :=
  match openerOf? t with
  | none => t :: stack
  | some o =>
    match stack.dropWhile (!opens ·) with
    | [] => t :: stack
    | u :: below => if u == o then "" :: below else t :: stack

/-- The pieces that lexemes make up, last first; a piece in brackets counts as one. -/
def piecesOf (ls : List Lexeme) : List String := (ls.map (·.text)).foldl shift []

/-! ## §2. Mendings. -/

/-- A way to mend a text. -/
structure Mending where
  /-- What it costs. -/
  price : Nat
  /-- The place that is at fault. -/
  offset : Nat
  /-- The name of what has to be put in there; otherwise something has to be left out. -/
  missing : Option String
  /-- The mended text. -/
  text : List Char
  /-- The byte up to which the mended text can be read at least if the mending is any good. -/
  goal : Nat

/-- The characters of a text from byte `a` up to byte `b`. -/
def slice (text : List Char) (a b : Nat) : List Char :=
  match partAtByte? a text with
  | none => []
  | some (_, r) =>
    match partAtByte? (b - a) r with
    | none => []
    | some (m, _) => m

/-- The price of putting something in. -/
def priceOfMissing : Nat := 610

/-- The least price of one more mending. -/
def priceOfAnother : Nat := 600

/-- The price of leaving out lexemes: a part for doing so at all, for each piece, for each byte
    and for each line. -/
def priceOfLeaving (text : List Char) (gone : List Lexeme) : Nat :=
  match gone.head?, gone.getLast? with
  | some a, some b =>
    let run := slice text a.span.start b.span.stop
    500 + 100 * (piecesOf gone).length + byteLength run + 30 * run.count '\n'
  | _, _ => 0

/-- What may be missing: its name, and a text for it. -/
def missingPieces : List (String × String) :=
  [(";", ";"), (")", ")"), ("]", "]"), ("\x7d", "\x7d"), ("identifier", "x")]

/-- A mending of `text` that makes it `mended`, where both end with the lexemes `next`.  It is good
    for something if five of them can be read, or all. -/
def Mending.of (text mended : List Char) (price offset : Nat) (missing : Option String)
    (next : List Lexeme) : Mending :=
  let goal :=
    match next[4]? with
    | some l => byteLength mended + l.span.stop - byteLength text
    | none => byteLength mended + 1
  ⟨price, offset, missing, mended, goal⟩

/-- Whether a text can be read. -/
def readable (language : Language) (text : List Char) : Bool :=
  match readText language (String.ofList text) with
  | .ok _ => true
  | .error _ => false

/-- Whether a text can be read, or could be if it went on. -/
def readableSoFar (language : Language) (text : List Char) : Bool :=
  match readText language (String.ofList text) with
  | .ok _ => true
  | .error reach => byteLength text ≤ reach

/-- Whether a text ends with a statement or member that has to be ended before the next brace is
    closed. -/
def needsEnd (language : Language) (text : List Char) : Bool :=
  readableSoFar language (text ++ [' ', ';']) && !readableSoFar language (text ++ [' ', 'x'])

/-- The lexeme before the innermost open bracket. -/
def openedBy? (before : List Lexeme) : Option String :=
  go 0 before.reverse
where
  /-- The same, last lexeme first, where so many brackets have been closed. -/
  go : Nat → List Lexeme → Option String
    | _, [] => none
    | depth, l :: ls =>
      if (openerOf? l.text).isSome then go (depth + 1) ls
      else if opens l.text then
        match depth with
        | 0 => ls.head?.map (·.text)
        | depth + 1 => go depth ls
      else go depth ls

/-- Whether a text that something has been put into is complete enough for what follows: all that a
    line end or a closing brace would have to complete is not. -/
def completeBefore (language : Language) (start : List Char) (after : List Lexeme) : Bool :=
  match after with
  | [] => readable language start && readable language (start ++ ['x'])
  | next :: _ =>
    if next.text == "\x7d" then !needsEnd language start
    else if (next.text.toList.head?.map isWordStart).getD false then
      readableSoFar language (start ++ ['x'])
    else true

/-- The mendings that put something in behind the lexemes `before`, where `after` follow.  Nothing
    that a line end would have to complete is put in: the mended text goes on in the line.  A
    word that follows must be possible there whatever word it is. -/
def insertions (language : Language) (text : List Char) (before after : List Lexeme) :
    List Mending :=
  match before.getLast? with
  | none => []
  | some last =>
    let head := slice text 0 last.span.stop
    let tail :=
      match after with
      | [] => []
      | next :: _ => slice text next.span.start (byteLength text)
    let opener := openedBy? before
    missingPieces.filterMap fun (name, piece) =>
      let start := head ++ ' ' :: piece.toList ++ [' ']
      if name == "identifier" && (after.head?.map (·.text)) == some "=" then none
      else if name == ")" && (opener == some "for" || opener == some "catch") then none
      else if !completeBefore language start after then none
      else
        let inType := name == "identifier" && readableSoFar language (head ++ " keyof x".toList)
        let name := if inType then "type_identifier" else name
        some (.of text (start ++ tail) priceOfMissing last.span.stop (some name) after)

/-- Words that only begin statements. -/
def openingWords : List String :=
  ["import", "export", "const", "var", "if", "for", "while", "do", "switch", "try", "throw",
    "return", "break", "continue", "debugger", "with"]

/-- Whether a text could go on with a lexeme in the same line.  After something has been left out, a
    word that only begins statements counts as such. -/
def goesOnWith (language : Language) (text : List Char) (next : Lexeme) (again : Bool) : Bool :=
  if again && openingWords.contains next.text then
    readableSoFar language (text ++ " if (x) y".toList)
  else
    readableSoFar language (text ++ ' ' :: next.text.toList) &&
      (next.text != "\x7d" || !needsEnd language text)

/-- How many of the lexemes of the unfinished statement stay if `n` lexemes after them are left out:
    as many as possible, so that the text can go on with the lexeme behind those.  What stands in a
    pair of brackets stays or goes as a whole, and at the end of the text nothing stays. -/
def keptBefore? (language : Language) (text : List Char) (unfinished after : List Lexeme)
    (n : Nat) : Option Nat :=
  match after.drop n with
  | [] => some 0
  | next :: _ =>
    let start := ((unfinished ++ after).head?.map (·.span.start)).getD 0
    let most := if n == 0 then unfinished.length - 1 else unfinished.length
    (List.range (most + 1)).reverse.find? fun kept =>
      let stop := ((unfinished.take kept).getLast?.map (·.span.stop)).getD start
      (piecesOf (unfinished.take kept)).isSuffixOf (piecesOf unfinished) &&
        goesOnWith language (slice text 0 stop) next (0 < n)

/-- The mendings that leave out some of the last lexemes of `unfinished` and some of the first of
    `after`. -/
def removals (language : Language) (text : List Char) (unfinished after : List Lexeme) :
    List Mending :=
  (List.range (min 8 after.length + 1)).filterMap fun n => do
    let kept ← keptBefore? language text unfinished after n
    let gone := unfinished.drop kept ++ after.take n
    let a ← gone.head?
    let b ← gone.getLast?
    let mended := slice text 0 a.span.start ++ slice text b.span.stop (byteLength text)
    some (.of text mended (priceOfLeaving text gone) a.span.start none (after.drop n))

/-! ## §3. The place at fault. -/

/-- Whether a statement may begin at byte `n`: the text before it can be read, and goes on. -/
def statementMayBegin (language : Language) (text : List Char) (n : Nat) : Bool :=
  let before := slice text 0 n
  readable language before && readable language (before ++ [' ', 'x'])

/-- The last of the lexemes with which a statement begins, and those after it. -/
def lastStatement (language : Language) (text : List Char) : List Lexeme → List Lexeme
  | [] => []
  | l :: ls =>
    match lastStatement language text ls with
    | [] => if statementMayBegin language text l.span.start then l :: ls else []
    | found => found

/-- A place that is at fault. -/
structure Fault where
  /-- The byte offset. -/
  offset : Nat
  /-- The name of what is missing there; otherwise something is unexpected. -/
  missing : Option String
  deriving Repr

/-- Whether a mended text can be read as far as the mending is meant to help. -/
def Mending.helps (language : Language) (m : Mending) : Bool :=
  match readText language (String.ofList m.text) with
  | .ok _ => false
  | .error reach => m.goal ≤ reach

/-- The cheaper of a mending of the whole text and one after which another is needed. -/
def cheaper? : Option Mending → Option Mending → Option Mending
  | some whole, some half =>
    some (if whole.price ≤ half.price + priceOfAnother then whole else half)
  | some whole, none => some whole
  | none, half => half

/-- The fault of a text that could be read up to byte `reach` only. -/
def faultAt (language : Language) (source : String) (reach : Nat) : Fault :=
  let text := source.toList
  let lexemes := lexemesOf source
  let before := lexemes.filter fun l => l.span.stop ≤ reach
  let after := lexemes.drop before.length
  let near := before.drop (before.length - 40)
  let unfinished := lastStatement language text (near ++ after.take 1)
  let unfinished := unfinished.take (unfinished.length - (after.take 1).length)
  let mendings := removals language text unfinished after ++ insertions language text before after
  let mendings := mendings.mergeSort fun a b => a.price ≤ b.price
  let whole := mendings.find? fun m => readable language m.text
  let half := mendings.find? fun m => m.helps language
  match cheaper? whole half with
  | some m => ⟨m.offset, m.missing⟩
  | none =>
    let start := (unfinished.head?.orElse fun _ => lexemes.head?).map fun l => l.span.start
    ⟨start.getD 0, none⟩

end ModuleMove.Grammar
