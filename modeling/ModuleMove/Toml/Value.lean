/-!
# VALUES — what a TOML document says

A document is a table: values under keys.  Tables come about in several ways, and the way decides
whether more keys may be put into them later: a table written in braces is closed, one under a
header of its own is complete but may get subtables, and one that only lies on the way to another
may still get a header.
-/

namespace ModuleMove.Toml

/-- How a table came about. -/
inductive TableForm where
  /-- It is written in braces. -/
  | closed
  /-- It has a header of its own, or is the document. -/
  | opened
  /-- A header of another table passes through it. -/
  | implied
  /-- A dotted key passes through it. -/
  | dotted
  deriving DecidableEq, Repr, Inhabited

/-- A value of a document. -/
inductive Value where
  /-- A text. -/
  | text (value : String)
  /-- An integer. -/
  | integer (value : Int)
  /-- A number with a fraction or an exponent, an infinity, or no number at all. -/
  | real
  /-- A truth value. -/
  | truth (value : Bool)
  /-- A date, a time, or both. -/
  | moment
  /-- Values in a row. -/
  | list (values : List Value)
  /-- A table. -/
  | table (form : TableForm) (entries : List (String × Value))
  /-- Tables under one repeated header: the one begun last, and the earlier ones, last first. -/
  | tables (latest : List (String × Value)) (earlier : List (List (String × Value)))
  deriving Inhabited

/-- Values under keys. -/
abbrev Entries : Type := List (String × Value)

/-- The value under a key. -/
def lookup? (key : String) (es : Entries) : Option Value :=
  (es.find? fun e => e.1 == key).map (·.2)

/-! ## §1. Putting values into tables. -/

/-- Changes the value under a key, which is at the end if it is new. -/
def alter (key : String) (f : Option Value → Option Value) : Entries → Option Entries
  | [] => (f none).map fun v => [(key, v)]
  | (k, v) :: es =>
    if k = key then (f (some v)).map fun w => (k, w) :: es
    else (alter key f es).map fun r => (k, v) :: r

/-- Goes into the value under a key on a way, and changes the table there.  A way that a header
    takes passes through all tables that are not closed; one that a dotted key takes does not
    pass through tables with a header of their own. -/
def enter (way : TableForm) (f : TableForm → Entries → Option (TableForm × Entries)) :
    Option Value → Option Value
  | none => (f way []).map fun r => .table r.1 r.2
  | some (.table form es) =>
    if form = .closed || (way = .dotted && form = .opened) then none
    else (f form es).map fun r => .table r.1 r.2
  | some (.tables latest earlier) =>
    (f .opened latest).map fun r => .tables r.2 earlier
  | some _ => none

/-- Changes the table at the end of a way of keys. -/
def changeAt (way : TableForm) (f : TableForm → Entries → Option (TableForm × Entries)) :
    List String → TableForm → Entries → Option (TableForm × Entries)
  | [], form, es => f form es
  | k :: ks, form, es =>
    (alter k (enter way (changeAt way f ks)) es).map fun r => (form, r)

/-- Puts a value under a new key. -/
def addNew (key : String) (v : Value) (es : Entries) : Option Entries :=
  alter key (fun | none => some v | some _ => none) es

/-- Puts a value under a dotted key into a table. -/
def assign (ways : List String) (key : String) (v : Value) (form : TableForm) (es : Entries) :
    Option (TableForm × Entries) :=
  changeAt .dotted
    (fun inner is =>
      if (inner == .dotted) == ways.isEmpty then none
      else (addNew key v is).map fun r => (inner, r))
    ways form es

/-- Begins the table under a header. -/
def openTable (ways : List String) (key : String) (es : Entries) : Option Entries :=
  (changeAt .implied
    (fun inner is => (alter key begin_ is).map fun r => (inner, r)) ways .opened es).map (·.2)
where
  /-- A table may be begun where nothing is, or where a header passed through. -/
  begin_ : Option Value → Option Value
    | none => some (.table .opened [])
    | some (.table .implied es) => some (.table .opened es)
    | some _ => none

/-- Begins one more table under a repeated header. -/
def openRepeated (ways : List String) (key : String) (es : Entries) : Option Entries :=
  (changeAt .implied
    (fun inner is => (alter key begin_ is).map fun r => (inner, r)) ways .opened es).map (·.2)
where
  /-- A repeated header may stand where nothing is, or where it stood before. -/
  begin_ : Option Value → Option Value
    | none => some (.tables [] [])
    | some (.tables latest earlier) => some (.tables [] (latest :: earlier))
    | some _ => none

/-! ## §2. Lines of a document. -/

/-- A line that says something. -/
inductive Line where
  /-- A header. -/
  | header (ways : List String) (key : String)
  /-- A repeated header. -/
  | repeated (ways : List String) (key : String)
  /-- A value under a dotted key. -/
  | pair (ways : List String) (key : String) (value : Value)

/-- What lines say, from those below the header `top` in the document `es` on. -/
def ofLines (top : List String) (es : Entries) : List Line → Option Entries
  | [] => some es
  | .header ways key :: ls => do ofLines (ways ++ [key]) (← openTable ways key es) ls
  | .repeated ways key :: ls => do ofLines (ways ++ [key]) (← openRepeated ways key es) ls
  | .pair ways key v :: ls => do
    let (_, es) ← changeAt .implied (assign ways key v) top .opened es
    ofLines top es ls

end ModuleMove.Toml
