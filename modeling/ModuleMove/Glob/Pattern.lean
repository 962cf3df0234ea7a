import ModuleMove.Text.Pieces

/-!
# PATTERNS — what globs say about paths

A pattern is matched against the bytes of a path's text.  A star and a question mark stay within
a name, two stars between slashes reach over any number of directories.
-/

namespace ModuleMove.Glob

/-- A part of a pattern. -/
inductive Part where
  /-- One byte. -/
  | byte (b : UInt8)
  /-- Any byte of a name. -/
  | any
  /-- Any number of bytes of a name. -/
  | run
  /-- Any number of directories at the beginning of the path. -/
  | leading
  /-- Everything in a directory. -/
  | inside
  /-- A slash, or any number of directories between slashes. -/
  | between
  /-- One byte from, or none from, ranges of bytes. -/
  | within (negated : Bool) (ranges : List (UInt8 × UInt8))
  /-- One of several patterns. -/
  | choice (branches : List (List Part))
  deriving Inhabited

/-- The bytes of a text. -/
def bytesOf (s : String) : List UInt8 := s.toUTF8.data.toList

/-- The byte of a slash. -/
def slash : UInt8 := 47

/-! ## §1. Matching. -/

/-- What can be left of a text after some bytes of a name. -/
def afterRun : List UInt8 → List (List UInt8)
  | [] => [[]]
  | b :: r => if b == slash then [b :: r] else (b :: r) :: afterRun r

/-- What can be left of a text after a slash. -/
def afterSlashes : List UInt8 → List (List UInt8)
  | [] => []
  | b :: r => if b == slash then r :: afterSlashes r else afterSlashes r

/-- Everything that can be left of a text. -/
def tails : List UInt8 → List (List UInt8)
  | [] => [[]]
  | b :: r => (b :: r) :: tails r

/-- The texts of a list, each length once: they all are ends of one text. -/
def distinctEnds (ts : List (List UInt8)) : List (List UInt8) :=
  ts.foldr (fun t seen => if seen.any (·.length == t.length) then seen else t :: seen) []

mutual

/-- What can be left of a text after a part of a pattern. -/
def restsOf : Part → List UInt8 → List (List UInt8)
  | .byte b, t =>
    match t with
    | c :: r => if b == c then [r] else []
    | [] => []
  | .any, t =>
    match t with
    | c :: r => if c == slash then [] else [r]
    | [] => []
  | .run, t => afterRun t
  | .leading, t => t :: afterSlashes t
  | .inside, t =>
    match t with
    | c :: r => if c == slash then tails r else []
    | [] => []
  | .between, t =>
    match t with
    | c :: r => if c == slash then r :: afterSlashes r else []
    | [] => []
  | .within negated ranges, t =>
    match t with
    | c :: r => if (ranges.any fun x => x.1 ≤ c && c ≤ x.2) != negated then [r] else []
    | [] => []
  | .choice branches, t => restsOfAny branches t

/-- What can be left of a text after one of several patterns. -/
def restsOfAny : List (List Part) → List UInt8 → List (List UInt8)
  | [], _ => []
  | ps :: bs, t => restsOfAll ps [t] ++ restsOfAny bs t

/-- What can be left of one of several texts after a pattern. -/
def restsOfAll : List Part → List (List UInt8) → List (List UInt8)
  | [], ts => ts
  | p :: ps, ts => restsOfAll ps (distinctEnds (ts.flatMap (restsOf p)))

end

/-- Whether a pattern matches a whole text. -/
def matchesText (ps : List Part) (text : String) : Bool :=
  match ps with
  | [.leading] => true
  | ps => (restsOfAll ps [bytesOf text]).any List.isEmpty

end ModuleMove.Glob
