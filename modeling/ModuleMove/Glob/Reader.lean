import ModuleMove.Glob.Pattern

/-!
# READING GLOBS — from the text of a glob to its pattern

A star stands for any part of a name, two stars for any number of directories if they stand
alone between slashes, brackets for one of the characters in them, braces for one of the
patterns in them.  A backslash takes away the meaning of the character after it.
-/

namespace ModuleMove.Glob

/-- Why a text is no glob. -/
inductive Trouble where
  /-- A bracket is not closed. -/
  | unclosedClass
  /-- A range ends before it begins. -/
  | invalidRange (first last : Char)
  /-- A brace is closed that is not open. -/
  | unopenedChoice
  /-- A brace is not closed. -/
  | unclosedChoice
  /-- Nothing follows a backslash. -/
  | danglingEscape
  deriving DecidableEq, Repr

/-- The wording of the trouble. -/
def Trouble.message : Trouble → String
  | unclosedClass => "unclosed character class; missing ']'"
  | invalidRange a b => "invalid range; '" ++ a.toString ++ "' > '" ++ b.toString ++ "'"
  | unopenedChoice =>
    "unopened alternate group; missing '\x7b' (maybe escape '\x7d' with '[\x7d]'?)"
  | unclosedChoice =>
    "unclosed alternate group; missing '\x7d' (maybe escape '\x7b' with '[\x7b]'?)"
  | danglingEscape => "dangling '\\'"

/-! ## §1. Classes. -/

/-- A character between brackets. -/
structure ClassState where
  /-- The ranges so far, last first. -/
  ranges : List (Char × Char)
  /-- Whether nothing has been read yet. -/
  first : Bool
  /-- Whether the last range is being extended. -/
  extending : Bool

/-- Extends the last range up to a character. -/
def ClassState.extend (s : ClassState) (c : Char) : Except Trouble ClassState :=
  match s.ranges with
  | (a, _) :: r =>
    if c < a then .error (.invalidRange a c) else .ok ⟨(a, c) :: r, false, false⟩
  | [] => .ok ⟨[(c, c)], false, false⟩

/-- Reads the ranges up to the closing bracket; gives them and what is left. -/
def readRanges : ClassState → List Char → Except Trouble (List (Char × Char) × List Char)
  | _, [] => .error .unclosedClass
  | s, c :: r =>
    if c == ']' && !s.first then
      .ok ((if s.extending then ('-', '-') :: s.ranges else s.ranges).reverse, r)
    else if c == '-' && !s.first && !s.extending then
      readRanges { s with extending := true } r
    else if s.extending then
      match s.extend c with
      | .ok s => readRanges s r
      | .error e => .error e
    else readRanges ⟨(c, c) :: s.ranges, false, false⟩ r

/-- The ranges of bytes that a range of characters comes down to: each byte of a character on
    its own, and a range between the two characters. -/
def byteRanges (r : Char × Char) : List (UInt8 × UInt8) :=
  let single := fun b => (b, b)
  let first := bytesOf r.1.toString
  if r.1 == r.2 then first.map single
  else
    let last := bytesOf r.2.toString
    first.dropLast.map single ++ [(first.getLast?.getD 0, last.head?.getD 0)] ++
      last.tail.map single

/-! ## §2. Patterns. -/

/-- The pattern read so far inside a pair of braces, or outside all. -/
structure Frame where
  /-- The branches before the last comma, last first. -/
  branches : List (List Part)
  /-- The parts after it, last first. -/
  parts : List Part
  deriving Inhabited

/-- The frames that are open, innermost first; there is always one. -/
structure Frames where
  /-- The innermost frame. -/
  inner : Frame
  /-- The frames around it. -/
  outer : List Frame
  deriving Inhabited

namespace Frames

/-- No pattern yet. -/
def start : Frames := ⟨⟨[], []⟩, []⟩

/-- Whether a brace is open. -/
def inBraces (f : Frames) : Bool := !f.outer.isEmpty

/-- Adds parts. -/
def add (f : Frames) (ps : List Part) : Frames :=
  { f with inner := { f.inner with parts := ps.reverse ++ f.inner.parts } }

/-- Puts a part in place of the last one, unless that one already reaches over directories. -/
def replaceLast (f : Frames) (p : Part) : Frames :=
  match f.inner.parts with
  | .leading :: _ => f
  | .inside :: _ => f
  | _ :: ps => { f with inner := { f.inner with parts := p :: ps } }
  | [] => f

/-- Opens a brace. -/
def openBrace (f : Frames) : Frames := ⟨⟨[], []⟩, f.inner :: f.outer⟩

/-- Begins another branch. -/
def nextBranch (f : Frames) : Frames :=
  { f with inner := ⟨f.inner.parts.reverse :: f.inner.branches, []⟩ }

/-- The branches of a frame that say something, as one part. -/
def choiceOf (f : Frame) : List Part :=
  match ((f.parts.reverse :: f.branches).reverse).filter fun ps => !ps.isEmpty with
  | [] => []
  | bs => [.choice bs]

/-- Closes a brace. -/
def closeBrace (f : Frames) : Except Trouble Frames :=
  match f.outer with
  | [] => .error .unopenedChoice
  | o :: os => .ok (Frames.add ⟨o, os⟩ (choiceOf f.inner))

end Frames

/-- Reads what follows one star; `before` is the character before it.  Gives the frames, what is
    left, and the character read last. -/
def readStar (before : Option Char) (f : Frames) (cs : List Char) :
    Frames × List Char × Option Char :=
  match cs with
  | '*' :: r =>
    let alone := (f.add [.run, .run], r, some '*')
    if f.inner.parts.isEmpty then
      match r with
      | [] => (f.add [.leading], [], none)
      | '/' :: s => (f.add [.leading], s, some '/')
      | _ => alone
    else if before != some '/' &&
        !(f.inBraces && (before == some ',' || before == some '\x7b')) then alone
    else
      match r with
      | [] => (f.replaceLast .inside, [], none)
      | c :: s =>
        if (c == ',' || c == '\x7d') && f.inBraces then (f.replaceLast .inside, r, some '*')
        else if c == '/' then (f.replaceLast .between, s, some '/')
        else alone
  | r => (f.add [.run], r, some '*')

/-- Reads a class of which the opening bracket has been read. -/
def readClass (cs : List Char) : Except Trouble (Part × List Char) :=
  let (negated, cs) :=
    match cs with
    | '!' :: r => (true, r)
    | '^' :: r => (true, r)
    | r => (false, r)
  match readRanges ⟨[], true, false⟩ cs with
  | .ok (ranges, rest) => .ok (.within negated (ranges.flatMap byteRanges), rest)
  | .error e => .error e

/-- The parts of a character that stands for itself. -/
def plainParts (c : Char) : List Part := (bytesOf c.toString).map .byte

/-- Reads a pattern with at most `fuel` steps.  With `lenient`, a bracket that is not closed
    stands for itself. -/
def readParts (lenient : Bool) : Nat → Option Char → Frames → List Char → Except Trouble Frames
  | 0, _, f, _ => .ok f
  | _, _, f, [] => .ok f
  | fuel + 1, before, f, c :: r =>
    match c with
    | '?' => readParts lenient fuel (some c) (f.add [.any]) r
    | '*' =>
      let (f, r, last) := readStar before f r
      readParts lenient fuel last f r
    | '[' =>
      match readClass r with
      | .ok (p, r) => readParts lenient fuel (some ']') (f.add [p]) r
      | .error e =>
        if lenient && e == .unclosedClass then
          readParts lenient fuel (some c) (f.add (plainParts c)) r
        else .error e
    | '\x7b' => readParts lenient fuel (some c) f.openBrace r
    | '\x7d' =>
      match f.closeBrace with
      | .ok f => readParts lenient fuel (some c) f r
      | .error e => .error e
    | ',' =>
      if f.inBraces then readParts lenient fuel (some c) f.nextBranch r
      else readParts lenient fuel (some c) (f.add (plainParts c)) r
    | '\\' =>
      match r with
      | [] => .error .danglingEscape
      | d :: r => readParts lenient fuel (some d) (f.add (plainParts d)) r
    | _ => readParts lenient fuel (some c) (f.add (plainParts c)) r

/-- The pattern of a glob. -/
def pattern (lenient : Bool) (s : String) : Except Trouble (List Part) :=
  match readParts lenient s.length none Frames.start s.toList with
  | .error e => .error e
  | .ok f => if f.inBraces then .error .unclosedChoice else .ok f.inner.parts.reverse

end ModuleMove.Glob
