import ModuleMove.Grammar.Reader

/-!
# LEXEMES — words, literals, numbers, operators and punctuation

The grammar asks for the lexeme that it expects, so the same characters can be read as one
thing in one place and as another elsewhere: a `/` opens a regular expression where a value
is expected and divides where an operator is, and a word is a keyword only where the grammar
has a use for the keyword.  Every reader here first steps over blanks and comments.  Of the lexemes,
only a string literal makes a node by itself.
-/

namespace ModuleMove.Grammar

open Cursor SyntaxNode Reader

/-! ## §1. Punctuation and operators. -/

/-- Reads exactly the characters of `s`, without skipping anything. -/
def exactly (s : String) : Reader Unit :=
  .step (fun c => if s.toList.isPrefixOf c.rest then some ((), c.advance s.length) else none)
    fun c _ n h => by
      simp only [Option.ite_none_right_eq_some, Option.some.injEq, Prod.mk.injEq, true_and] at h
      rw [← h.2]
      exact leadsTo_advance _ c

/-- Reads the characters of `s` after blanks. -/
def mark (s : String) : Reader Unit := do
  overBlanks
  exactly s

/-- The longest operator with which the characters begin. -/
def operatorAt : List Char → Option String
  | '>' :: '>' :: '>' :: '=' :: _ => some ">>>="
  | '>' :: '>' :: '>' :: _ => some ">>>"
  | '=' :: '=' :: '=' :: _ => some "==="
  | '!' :: '=' :: '=' :: _ => some "!=="
  | '*' :: '*' :: '=' :: _ => some "**="
  | '<' :: '<' :: '=' :: _ => some "<<="
  | '>' :: '>' :: '=' :: _ => some ">>="
  | '&' :: '&' :: '=' :: _ => some "&&="
  | '|' :: '|' :: '=' :: _ => some "||="
  | '?' :: '?' :: '=' :: _ => some "??="
  | '.' :: '.' :: '.' :: _ => some "..."
  | '=' :: '>' :: _ => some "=>"
  | '=' :: '=' :: _ => some "=="
  | '!' :: '=' :: _ => some "!="
  | '<' :: '=' :: _ => some "<="
  | '>' :: '=' :: _ => some ">="
  | '&' :: '&' :: _ => some "&&"
  | '|' :: '|' :: _ => some "||"
  | '?' :: '?' :: _ => some "??"
  | '?' :: '.' :: d :: _ => if d.isDigit then some "?" else some "?."
  | '+' :: '+' :: _ => some "++"
  | '-' :: '-' :: _ => some "--"
  | '*' :: '*' :: _ => some "**"
  | '<' :: '<' :: _ => some "<<"
  | '>' :: '>' :: _ => some ">>"
  | '+' :: '=' :: _ => some "+="
  | '-' :: '=' :: _ => some "-="
  | '*' :: '=' :: _ => some "*="
  | '/' :: '=' :: _ => some "/="
  | '%' :: '=' :: _ => some "%="
  | '&' :: '=' :: _ => some "&="
  | '|' :: '=' :: _ => some "|="
  | '^' :: '=' :: _ => some "^="
  | c :: _ =>
    if ['+', '-', '*', '/', '%', '&', '|', '^', '<', '>', '=', '!', '~', '?', '.'].contains c
    then some c.toString else none
  | [] => none

/-- Reads the longest operator after blanks, if it is one for which `p` holds. -/
def operatorThat (p : String → Bool) : Reader Unit := do
  .skip pastComments leadsTo_pastComments
  .step (fun c =>
      match operatorAt c.rest with
      | some s => if p s then some ((), c.advance s.length) else none
      | none => none)
    fun c _ n h => by
      split at h
      · simp only [Option.ite_none_right_eq_some, Option.some.injEq, Prod.mk.injEq,
          true_and] at h
        rw [← h.2]
        exact leadsTo_advance _ c
      · cases h

/-- Reads the operator `s`, and no longer one. -/
def operatorIs (s : String) : Reader Unit := operatorThat (· == s)

/-- Reads one of the operators listed. -/
def operatorIn (ss : List String) : Reader Unit := operatorThat ss.contains

/-! ## §2. Words. -/

/-- A hexadecimal digit. -/
def isHexDigit (c : Char) : Bool :=
  c.isDigit || ('a' ≤ c && c ≤ 'f') || ('A' ≤ c && c ≤ 'F')

/-- The characters of which words are made: all but blanks, control characters and the
    punctuation of the seven-bit set. -/
def isWordPart (c : Char) : Bool :=
  0x1f < c.toNat && !isBlank c && !"!\"#%&'()*+,-./:;<=>?@[\\]^\x60\x7b|\x7d~".toList.contains c

/-- The characters with which a word can begin. -/
def isWordStart (c : Char) : Bool := isWordPart c && !c.isDigit

/-- The number of characters of the word, or rest of a word, with which the text begins.  In a
    word, an escaped code point stands for its character. -/
def wordLength : List Char → Nat
  | '\\' :: 'u' :: r =>
    match r with
    | a :: b :: c :: d :: r =>
      if [a, b, c, d].all isHexDigit then 6 + wordLength r
      else if a == '\x7b' then
        match (b :: c :: d :: r).dropWhile isHexDigit with
        | '\x7d' :: _ => if isHexDigit b then 3 + inBraces (b :: c :: d :: r) else 0
        | _ => 0
      else 0
    | ['\x7b', b, '\x7d'] => if isHexDigit b then 5 else 0
    | _ => 0
  | c :: r => if isWordPart c then 1 + wordLength r else 0
  | [] => 0
where
  /-- Inside an escape in braces, which is known to be closed. -/
  inBraces : List Char → Nat
    | '\x7d' :: r => 1 + wordLength r
    | _ :: r => 1 + inBraces r
    | [] => 0

/-- The word that begins right here, if one does, and the place after it. -/
def Cursor.word? (c : Cursor) : Option (String × Cursor) :=
  match c.rest with
  | x :: _ =>
    if isWordStart x || x == '\\' then
      let n := wordLength c.rest
      if n == 0 then none else some (String.ofList (c.rest.take n), c.advance n)
    else none
  | [] => none

theorem Cursor.leadsTo_word? {c n : Cursor} {w : String} (h : c.word? = some (w, n)) :
    c.LeadsTo n := by
  unfold word? at h
  split at h
  · simp only [Option.ite_none_right_eq_some, Option.ite_none_left_eq_some, Option.some.injEq,
      Prod.mk.injEq] at h
    rw [← h.2.2.2]
    exact leadsTo_advance _ c
  · cases h

/-- Reads the word that begins right here. -/
def wordHere : Reader String := .step word? fun _ _ _ => leadsTo_word?

/-- Reads any word. -/
def anyWord : Reader String := do
  overBlanks
  wordHere

/-- Reads a word for which `p` holds. -/
def wordThat (p : String → Bool) : Reader String := do
  overBlanks
  .step (fun c => c.word?.filter fun w => p w.1) fun _ _ _ h =>
    leadsTo_word? (Option.filter_eq_some_iff.1 h).1

/-- Reads the word `s`. -/
def keyword (s : String) : Reader Unit := do
  let _ ← wordThat (· == s)

/-- The word that stands here, read without moving. -/
def nextWord : Reader (Option String) := .look fun c => c.pastBlanks.word?.map (·.1)

/-- The character that stands here after blanks, read without moving. -/
def nextChar : Reader (Option Char) := .look fun c => c.pastBlanks.rest.head?

/-- Reads a name that belongs to its class alone: `#` and a word. -/
def hiddenName : Reader Unit := do
  mark "#"
  let _ ← wordHere

/-! ## §3. String literals. -/

/-- The number of characters before the closing quote `q`, if there is one on the line.  A
    backslash takes the next character with it, a line break included; it takes a line feed with it
    also behind a carriage return or a question mark. -/
def closingQuote? (q : Char) : List Char → Option Nat
  | '\\' :: '\r' :: '\n' :: r => (closingQuote? q r).map (· + 3)
  | '\\' :: '?' :: '\n' :: r => (closingQuote? q r).map (· + 3)
  | '\\' :: _ :: r => (closingQuote? q r).map (· + 2)
  | c :: r =>
    if c == q then some 0
    else if c == '\n' || c == '\r' || c == '\\' then none
    else (closingQuote? q r).map (· + 1)
  | [] => none

/-- Whether each backslash begins a complete escape. -/
def escapesComplete : List Char → Bool
  | '\\' :: 'x' :: a :: b :: r => isHexDigit a && isHexDigit b && escapesComplete r
  | '\\' :: 'u' :: '\x7b' :: r =>
    let hex := r.takeWhile isHexDigit
    !hex.isEmpty && (r.drop hex.length).head? == some '\x7d' && escapesComplete r
  | '\\' :: 'u' :: a :: b :: c :: d :: r => [a, b, c, d].all isHexDigit && escapesComplete r
  | '\\' :: 'x' :: _ => false
  | '\\' :: 'u' :: _ => false
  | '\\' :: _ :: r => escapesComplete r
  | _ :: r => escapesComplete r
  | [] => true

/-- The number of characters between the quotes of the string literal that begins here, if one
    does. -/
def literalAt : List Char → Option Nat
  | q :: r =>
    if q == '\'' || q == '"' then
      (closingQuote? q r).filter fun n => escapesComplete (r.take n)
    else none
  | [] => none

/-- Behind the characters before the closing quote, the quote stands. -/
theorem exists_of_closingQuote? {q : Char} {cs : List Char} {n : Nat}
    (h : closingQuote? q cs = some n) : ∃ ds b, cs = ds ++ q :: b ∧ ds.length = n := by
  fun_induction closingQuote? q cs generalizing n with
  | case1 r ih =>
    obtain ⟨m, hm, rfl⟩ := Option.map_eq_some_iff.1 h
    obtain ⟨ds, b, rfl, rfl⟩ := ih hm
    exact ⟨'\\' :: '\r' :: '\n' :: ds, b, rfl, rfl⟩
  | case2 r ih =>
    obtain ⟨m, hm, rfl⟩ := Option.map_eq_some_iff.1 h
    obtain ⟨ds, b, rfl, rfl⟩ := ih hm
    exact ⟨'\\' :: '?' :: '\n' :: ds, b, rfl, rfl⟩
  | case3 x r _ _ ih =>
    obtain ⟨m, hm, rfl⟩ := Option.map_eq_some_iff.1 h
    obtain ⟨ds, b, rfl, rfl⟩ := ih hm
    exact ⟨'\\' :: x :: ds, b, rfl, rfl⟩
  | case4 c r _ _ _ hc =>
    cases h
    obtain rfl : c = q := by simpa using hc
    exact ⟨[], r, rfl, rfl⟩
  | case5 => cases h
  | case6 c r _ _ _ _ _ ih =>
    obtain ⟨m, hm, rfl⟩ := Option.map_eq_some_iff.1 h
    obtain ⟨ds, b, rfl, rfl⟩ := ih hm
    exact ⟨c :: ds, b, rfl, rfl⟩
  | case7 => cases h

theorem exists_of_literalAt {cs : List Char} {n : Nat} (h : literalAt cs = some n) :
    ∃ q ds b, cs = q :: (ds ++ q :: b) ∧ (q = '\'' ∨ q = '"') ∧ ds.length = n := by
  unfold literalAt at h
  split at h
  · rename_i q r
    simp only [Option.ite_none_right_eq_some, Bool.or_eq_true, beq_iff_eq] at h
    obtain ⟨hq, h⟩ := h
    obtain ⟨ds, b, rfl, hlength⟩ := exists_of_closingQuote? (Option.filter_eq_some_iff.1 h).1
    exact ⟨q, ds, b, rfl, hq, hlength⟩
  · cases h

/-- Reads a string literal right here, in single or double quotes; it makes a node that is the given
    field. -/
def literalHere (field : Option String) : Reader Unit where
  read c :=
    match literalAt c.rest with
    | some n =>
      let next := c.advance (n + 2)
      .found () [⟨"string", field, true, false, ⟨c.offset, next.offset⟩, []⟩] next 0
    | none => .stuck c.offset
  sound text c hc := by
    split
    · rename_i n h
      have hnext := leadsTo_advance (n + 2) c
      refine ⟨hnext, laid_singleton (Nat.le_refl _) hnext.offset_le (Nat.le_refl _)
        (allLawful_iff.2 ⟨lawful_of_quoted rfl rfl rfl ?_, by simp⟩)⟩
      obtain ⟨q, ds, b, hrest, hq, hlength⟩ := exists_of_literalAt h
      obtain ⟨a, htext, ha⟩ := exists_of_leadsTo hc
      refine ⟨a, q, ds, b, by rw [htext, hrest], hq, ?_⟩
      have hsize : q.utf8Size = 1 := by rcases hq with rfl | rfl <;> rfl
      have htake : c.rest.take (n + 2) = q :: (ds ++ [q]) := by
        have hlong : n + 1 = (ds ++ [q]).length := by simp [hlength]
        rw [hrest, List.take_succ_cons, List.append_cons, hlong, List.take_left]
      show Span.mk c.offset (c.offset + byteLength (c.rest.take (n + 2))) = _
      rw [htake, ← ha]
      congr 1
      simp only [byteLength_append, byteLength_cons, byteLength_nil, hsize]
      omega
    · trivial

/-- Reads a string literal. -/
def literal : Reader Unit := do
  overBlanks
  literalHere none

/-- Reads a string literal that names the module of a statement. -/
def sourceLiteral : Reader Unit := do
  overBlanks
  literalHere (some "source")

/-! ## §4. Numbers. -/

/-- The text after a run of digits of which single ones may be set apart by `_`. -/
def pastDigits (digit : Char → Bool) : List Char → List Char
  | '_' :: d :: r => if digit d then pastDigits digit r else '_' :: d :: r
  | d :: r => if digit d then pastDigits digit r else d :: r
  | [] => []

/-- The text after an exponent, if one begins here. -/
def pastExponent (cs : List Char) : List Char :=
  match cs with
  | e :: s :: d :: r =>
    if e == 'e' || e == 'E' then
      if s.isDigit then pastDigits Char.isDigit (s :: d :: r)
      else if (s == '+' || s == '-') && d.isDigit then pastDigits Char.isDigit (d :: r)
      else cs
    else cs
  | [e, d] => if (e == 'e' || e == 'E') && d.isDigit then [] else cs
  | _ => cs

/-- The text after digits in another base, with the mark of a big integer if there is one; none
    if the first of them is missing. -/
def pastBased? (digit : Char → Bool) : List Char → Option (List Char)
  | d :: r =>
    if digit d then
      match pastDigits digit r with
      | 'n' :: r => some r
      | r => some r
    else none
  | [] => none

/-- The text after the decimal number that begins here, if one does. -/
def pastDecimal? : List Char → Option (List Char)
  | '.' :: d :: r => if d.isDigit then some (pastExponent (pastDigits Char.isDigit r)) else none
  | d :: r =>
    if d.isDigit then
      match pastDigits Char.isDigit r with
      | 'n' :: r => some r
      | '.' :: r =>
        match r with
        | x :: s => if x.isDigit then some (pastExponent (pastDigits Char.isDigit s))
                    else some (pastExponent r)
        | [] => some []
      | r => some (pastExponent r)
    else none
  | [] => none

/-- The text after the number that begins here, if one does. -/
def pastNumber? (cs : List Char) : Option (List Char) :=
  let based :=
    match cs with
    | '0' :: b :: r =>
      if b == 'x' || b == 'X' then pastBased? isHexDigit r
      else if b == 'b' || b == 'B' then pastBased? (fun d => d == '0' || d == '1') r
      else if b == 'o' || b == 'O' then pastBased? (fun d => '0' ≤ d && d ≤ '7') r
      else none
    | _ => none
  based <|> pastDecimal? cs

/-- Reads up to the characters that `f` finds behind something. -/
def readUpTo (f : List Char → Option (List Char)) : Reader Unit :=
  .step (fun c => (f c.rest).map fun r => ((), c.upTo r)) fun c _ n h => by
    obtain ⟨r, -, hr⟩ := Option.map_eq_some_iff.1 h
    cases hr
    exact leadsTo_upTo c r

/-- Reads a number. -/
def number : Reader Unit := do
  overBlanks
  readUpTo pastNumber?

/-! ## §5. Regular expressions. -/

/-- The text after the body and the closing `/` of a regular expression; `inClass` between
    brackets, where a `/` does not close it. -/
def pastPattern? (inClass : Bool) : List Char → Option (List Char)
  | '\\' :: c :: r => if c == '\n' then none else pastPattern? inClass r
  | '\n' :: _ => none
  | ['\\'] => none
  | '[' :: r => pastPattern? true r
  | ']' :: r => pastPattern? false r
  | '/' :: r => if inClass then pastPattern? inClass r else some r
  | _ :: r => pastPattern? inClass r
  | [] => none

/-- The text after the regular expression with its flags that begins here, if one does. -/
def pastRegularExpression? : List Char → Option (List Char)
  | '/' :: r => (pastPattern? false r).map fun after => after.dropWhile fun x => 'a' ≤ x && x ≤ 'z'
  | _ => none

/-- Reads a regular expression with its flags. -/
def regularExpression : Reader Unit := do
  overBlanks
  readUpTo pastRegularExpression?

end ModuleMove.Grammar
