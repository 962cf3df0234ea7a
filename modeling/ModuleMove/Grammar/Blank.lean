import ModuleMove.Grammar.Cursor
import ModuleMove.Source.Language

/-!
# BLANKS, COMMENTS AND LINE ENDS — what stands between the lexemes

Blanks and comments may stand between any two lexemes.  A line break among them can end a
statement that has no `;`.  Whether it does is decided by the characters around the break and
by two facts about the place: whether an operator such as `||` could follow (`operand`), and
whether a function head without a body ends here (`head`).  The typed and the untyped
languages weigh comments before the break differently, and with them where the statement ends.
-/

namespace ModuleMove.Grammar

/-! ## §1. Classes of characters. -/

/-- The blanks of the seven-bit set. -/
def isPlainBlank (c : Char) : Bool :=
  c == ' ' || (9 ≤ c.toNat && c.toNat ≤ 13)

/-- The blanks that may stand between lexemes. -/
def isBlank (c : Char) : Bool :=
  isPlainBlank c ||
    (let n := c.toNat
     n == 0xa0 || n == 0x1680 || (0x2000 ≤ n && n ≤ 0x200b) || n == 0x2028 || n == 0x2029 ||
      n == 0x202f || n == 0x205f || n == 0x2060 || n == 0x3000 || n == 0xfeff)

/-- The line separators beyond the seven-bit set. -/
def isLineSeparator (c : Char) : Bool := c.toNat == 0x2028 || c.toNat == 0x2029

/-- The characters at which a `//` comment stops. -/
def endsLineComment (c : Char) : Bool := c == '\n' || c == '\r' || isLineSeparator c

/-- A letter of the seven-bit set. -/
def isLetter (c : Char) : Bool :=
  ('a' ≤ c && c ≤ 'z') || ('A' ≤ c && c ≤ 'Z')

/-! ## §2. Comments. -/

/-- The place after the first `*/`, if there is one. -/
def Cursor.pastBlockEnd? (c : Cursor) : Option Cursor :=
  go c.offset c.rest
where
  /-- The part of the comment that begins at byte `o`. -/
  go (o : Nat) : List Char → Option Cursor
    | '*' :: '/' :: r => some ⟨o + 2, r⟩
    | x :: r => go (o + x.utf8Size) r
    | [] => none

/-- The place after the comment that begins here, if one does and it is closed. -/
def Cursor.pastComment? (c : Cursor) : Option Cursor :=
  match c.rest with
  | '/' :: '/' :: r => some (Cursor.dropWhile (fun x => !endsLineComment x) ⟨c.offset + 2, r⟩)
  | '/' :: '*' :: r => Cursor.pastBlockEnd? ⟨c.offset + 2, r⟩
  | _ => none

/-- The place after the blanks that begin here. -/
def Cursor.pastSpace (c : Cursor) : Cursor := c.dropWhile isBlank

/-- Whether a comment begins here that has the form of a comment of markup: `<!--` or `-->` opens
    it. -/
def markupCommentAt : List Char → Bool
  | '<' :: '!' :: '-' :: '-' :: _ => true
  | '-' :: '-' :: '>' :: _ => true
  | _ => false

/-- The characters at which a comment of markup stops. -/
def endsMarkupComment (c : Char) : Bool := c == '\n' || isLineSeparator c

/-- The place after the comment of markup that begins here, if one does. -/
def Cursor.pastMarkupComment? (c : Cursor) : Option Cursor :=
  if markupCommentAt c.rest then some (c.dropWhile fun x => !endsMarkupComment x) else none

/-- What is being stepped over: blanks, a comment up to the end of its line, or a block comment that
    began at the given place. -/
inductive BlankMode where
  | space
  | line
  | markup
  | block (opening : Cursor)

/-- Steps over blanks and comments; over comments of markup too, if `markup`.  A block comment that
    is never closed is not stepped over. -/
def Cursor.past (markup : Bool) (c : Cursor) : Cursor :=
  go .space c.offset c.rest
where
  /-- In the given mode, at byte `o`. -/
  go : BlankMode → Nat → List Char → Cursor
    | .space, o, '/' :: '/' :: r => go .line (o + 2) r
    | .space, o, '/' :: '*' :: r => go (.block ⟨o, '/' :: '*' :: r⟩) (o + 2) r
    | .space, o, x :: r =>
      if isBlank x then go .space (o + x.utf8Size) r
      else if markup && markupCommentAt (x :: r) then go .markup (o + x.utf8Size) r
      else ⟨o, x :: r⟩
    | .line, o, x :: r =>
      if endsLineComment x then go .space (o + x.utf8Size) r else go .line (o + x.utf8Size) r
    | .markup, o, x :: r =>
      if endsMarkupComment x then go .space (o + x.utf8Size) r else go .markup (o + x.utf8Size) r
    | .block _, o, '*' :: '/' :: r => go .space (o + 2) r
    | .block b, o, x :: r => go (.block b) (o + x.utf8Size) r
    | .block b, _, [] => b
    | _, o, [] => ⟨o, []⟩

/-- The place after all blanks and comments that begin here, where no operator can stand. -/
def Cursor.pastBlanks (c : Cursor) : Cursor := c.past true

/-- The place after all blanks and comments that begin here, where an operator can stand: what
    looks like a comment of markup consists of operators. -/
def Cursor.pastComments (c : Cursor) : Cursor := c.past false

namespace Cursor

variable {c d : Cursor}

theorem leadsTo_pastBlockEnd? (h : c.pastBlockEnd? = some d) : c.LeadsTo d := by
  suffices hgo : ∀ (o : Nat) (r : List Char), pastBlockEnd?.go o r = some d →
      LeadsTo ⟨o, r⟩ d from hgo _ _ h
  intro o r
  fun_induction pastBlockEnd?.go o r with
  | case1 o r =>
    intro h
    cases h
    exact leadsTo_append o ['*', '/'] r
  | case2 o x r hx ih => exact fun h => (leadsTo_cons o x r).trans (ih h)
  | case3 => exact fun h => nomatch h

theorem leadsTo_pastComment? (h : c.pastComment? = some d) : c.LeadsTo d := by
  obtain ⟨o, cs⟩ := c
  unfold pastComment? at h
  split at h
  · rename_i r hr
    cases h
    obtain rfl : cs = _ := hr
    exact (leadsTo_append o ['/', '/'] r).trans (leadsTo_dropWhile _ _)
  · rename_i r hr
    obtain rfl : cs = _ := hr
    exact (leadsTo_append o ['/', '*'] r).trans (leadsTo_pastBlockEnd? h)
  · cases h

theorem leadsTo_pastMarkupComment? (h : c.pastMarkupComment? = some d) : c.LeadsTo d := by
  simp only [pastMarkupComment?, Option.ite_none_right_eq_some, Option.some.injEq] at h
  obtain ⟨-, rfl⟩ := h
  exact leadsTo_dropWhile _ c

theorem leadsTo_pastSpace (c : Cursor) : c.LeadsTo c.pastSpace := leadsTo_dropWhile _ c

theorem leadsTo_past (markup : Bool) (c : Cursor) : c.LeadsTo (c.past markup) := by
  -- a block comment that is never closed leads back to where it began
  suffices h : ∀ (m : BlankMode) (o : Nat) (r : List Char),
      (∀ b, m = .block b → c.LeadsTo b) → c.LeadsTo ⟨o, r⟩ →
        c.LeadsTo (past.go markup m o r) from
    h _ _ _ (by simp) (.refl _)
  intro m o r
  fun_induction past.go markup m o r with
  | case1 o r ih =>
    intro _ h
    exact ih (by simp) (h.trans (leadsTo_append o ['/', '/'] r))
  | case2 o r ih =>
    intro _ h
    exact ih (by rintro b ⟨⟩; exact h) (h.trans (leadsTo_append o ['/', '*'] r))
  | case3 o x r hline hblock hx ih =>
    intro _ h
    exact ih (by simp) (h.trans (leadsTo_cons o x r))
  | case4 o x r hline hblock hx hm ih =>
    intro _ h
    exact ih (by simp) (h.trans (leadsTo_cons o x r))
  | case5 o x r hline hblock hx hm => exact fun _ h => h
  | case6 o x r hx ih =>
    intro _ h
    exact ih (by simp) (h.trans (leadsTo_cons o x r))
  | case7 o x r hx ih =>
    intro _ h
    exact ih (by simp) (h.trans (leadsTo_cons o x r))
  | case8 o x r hx ih =>
    intro _ h
    exact ih (by simp) (h.trans (leadsTo_cons o x r))
  | case9 o x r hx ih =>
    intro _ h
    exact ih (by simp) (h.trans (leadsTo_cons o x r))
  | case10 b o r ih =>
    intro _ h
    exact ih (by simp) (h.trans (leadsTo_append o ['*', '/'] r))
  | case11 b o x r hx ih =>
    intro hb h
    exact ih hb (h.trans (leadsTo_cons o x r))
  | case12 b o => exact fun hb _ => hb b rfl
  | case13 m o hm => exact fun _ h => h

theorem leadsTo_pastBlanks (c : Cursor) : c.LeadsTo c.pastBlanks := leadsTo_past true c

theorem leadsTo_pastComments (c : Cursor) : c.LeadsTo c.pastComments := leadsTo_past false c

end Cursor

/-! ## §3. Line breaks that end a statement. -/

/-- Facts about a place that decide whether a line break ends a statement there. -/
structure Ending where
  /-- An operator such as `||` could stand here. -/
  operand : Bool
  /-- A function head without a body could end here. -/
  head : Bool
  deriving Repr

namespace Ending

/-- After a complete expression. -/
def afterOperand : Ending := ⟨true, false⟩

/-- Where no operator can follow. -/
def plain : Ending := ⟨false, false⟩

/-- After the head of a function that may lack a body. -/
def afterHead : Ending := ⟨false, true⟩

end Ending

/-- Whether the letters after `in` and the rest make the word `in` or `instanceof`. -/
def continuesWithIn (cs : List Char) : Bool :=
  match cs with
  | [] => true
  | c :: _ =>
    if !isLetter c then true
    else if "stanceof".toList.isPrefixOf cs then
      match cs.drop "stanceof".length with
      | d :: _ => !isLetter d
      | [] => true
    else false

/-- Whether the text after a line break begins a new statement: the line break rules common to
    all languages.  `hindered` are the characters that continue the statement. -/
def startsAfresh (hindered : List Char) : List Char → Bool
  | '+' :: r => r.head? == some '+'
  | '-' :: r => r.head? == some '-'
  | '!' :: r => r.head? != some '='
  | 'i' :: 'n' :: r => !continuesWithIn r
  | c :: _ => !hindered.contains c
  | [] => true

/-- Steps over blanks and comments in search of the next statement: the place is given up at a
    `/` that opens no comment, and the second part of the answer is then `false`. -/
def Cursor.toStatement (c : Cursor) (fuel : Nat) : Cursor × Bool :=
  match fuel with
  | 0 => (c, true)
  | fuel + 1 =>
    let d := c.dropWhile isPlainBlank
    match d.rest with
    | '/' :: '/' :: r =>
      (Cursor.dropWhile (fun x => !(x == '\n')) ⟨d.offset + 2, r⟩).toStatement fuel
    | '/' :: '*' :: r =>
      match Cursor.pastBlockEnd? ⟨d.offset + 2, r⟩ with
      | some e => e.toStatement fuel
      | none => (⟨d.offset, []⟩, true)
    | '/' :: _ => (d, false)
    | _ => (d, true)

/-- The line break rule of the typed languages: blanks, then a line break that is not followed
    by something that continues the statement; or the end of a block or of the file. -/
def endsTyped (e : Ending) : List Char → Bool
  | [] => true
  | '}' :: r =>
    match r.dropWhile isPlainBlank with
    | ':' :: _ => e.operand
    | _ => true
  | '\n' :: r =>
    match Cursor.toStatement ⟨0, r⟩ (r.length + 1) with
    | (next, true) =>
      match next.rest with
      | '{' :: _ => !e.head
      | '(' :: _ => !e.operand
      | '[' :: _ => !e.operand
      | cs => startsAfresh
          ['\x60', ',', '.', ';', '*', '%', '>', '<', '=', '?', '^', '|', '&', '/', ':'] cs
    | (_, false) => false
  | c :: r => if isPlainBlank c then endsTyped e r else false

/-- How a run of comments before a line break was left: at a `/` that opens none, after a block
    comment on one line, or behind a line break. -/
inductive CommentRun where
  | refused
  | sameLine
  | newLine
  deriving DecidableEq

/-- Steps over the comments that begin here: up to the first block comment that no further `/`
    follows directly, or to the next statement. -/
def Cursor.overComments (c : Cursor) (broken : Bool) : Nat → Cursor × CommentRun
  | 0 => (c, .newLine)
  | fuel + 1 =>
    let d := c.dropWhile isPlainBlank
    match d.rest with
    | '/' :: '/' :: r =>
      (Cursor.dropWhile (fun x => !(x == '\n' || isLineSeparator x))
        ⟨d.offset + 2, r⟩).overComments broken fuel
    | '/' :: '*' :: r =>
      match Cursor.pastBlockEnd? ⟨d.offset + 2, r⟩ with
      | some e =>
        let inside := r.take (r.length - e.rest.length)
        let broken := broken || inside.any (fun x => x == '\n' || isLineSeparator x)
        if e.rest.head? == some '/' then e.overComments broken fuel
        else (e, if broken then .newLine else .sameLine)
      | none => (⟨d.offset, []⟩, .newLine)
    | '/' :: _ => (d, .refused)
    | _ => (d, .newLine)

/-- The line break rule of the untyped language.  Comments before the break are looked through,
    and where no operator could follow, a comment that ends its line ends the statement. -/
def endsUntyped (e : Ending) (cs : List Char) : Bool :=
  go cs (cs.length + 1)
where
  /-- The text left before the line break. -/
  go (cs : List Char) : Nat → Bool
    | 0 => true
    | fuel + 1 =>
      match cs with
      | [] => true
      | '/' :: _ =>
        match Cursor.overComments ⟨0, cs⟩ false (cs.length + 1) with
        | (_, .refused) => false
        | (next, run) =>
          if run == .newLine && !e.operand && next.rest.head? != some ',' &&
              next.rest.head? != some '=' then true
          else
            match next.rest with
            | [] => false
            | d :: r => step d r fuel
      | d :: r => step d r fuel
  /-- One character that is no comment. -/
  step (d : Char) (r : List Char) (fuel : Nat) : Bool :=
    if d == '}' then true
    else if d == '\n' || isLineSeparator d then
      match Cursor.toStatement ⟨0, r⟩ (r.length + 1) with
      | (next, true) =>
        match next.rest with
        | '.' :: x :: _ => x.isDigit
        | '.' :: [] => false
        | cs => startsAfresh
            ['\x60', ',', ':', ';', '*', '%', '>', '<', '=', '[', '(', '?', '^', '|', '&', '/'] cs
      | (_, false) => false
    else if isPlainBlank d then go r fuel
    else false

/-- Whether a statement without `;` ends right here. -/
def endsHere (language : Language) (e : Ending) (c : Cursor) : Bool :=
  if language.typed then endsTyped e c.rest else endsUntyped e c.rest

/-- The place at which a statement without `;` ends, if it does: here, or after one or more of
    the comments that follow. -/
def lineEnd? (language : Language) (e : Ending) (c : Cursor) : Option Cursor :=
  go c (c.rest.length + 1)
where
  /-- Tries here, then after the next comment. -/
  go (c : Cursor) : Nat → Option Cursor
    | 0 => none
    | fuel + 1 =>
      if endsHere language e c then some c
      else
        match c.pastSpace.pastComment? with
        | some d => go d fuel
        | none => none

theorem Cursor.leadsTo_lineEnd? {language : Language} {ending : Ending} {c d : Cursor}
    (h : lineEnd? language ending c = some d) : c.LeadsTo d := by
  suffices hgo : ∀ (fuel : Nat) (c : Cursor), lineEnd?.go language ending c fuel = some d →
      c.LeadsTo d from hgo _ _ h
  intro fuel
  induction fuel with
  | zero => exact fun c h => nomatch h
  | succ fuel ih =>
    intro c h
    simp only [lineEnd?.go] at h
    split at h
    · cases h
      exact .refl _
    · split at h
      · rename_i e he
        exact (leadsTo_pastSpace c).trans ((leadsTo_pastComment? he).trans (ih e h))
      · cases h

end ModuleMove.Grammar
