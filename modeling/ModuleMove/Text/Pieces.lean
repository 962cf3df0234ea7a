/-!
# PIECES — a text cut at a separator, and put together again

Cutting at every separator and joining with the separator undo each other.  A text without the
separator is a single piece, and so is the empty text.
-/

namespace ModuleMove

/-! ## §1. Characters. -/

/-- The runs of characters between the separators; at least one, and each may be empty. -/
def cutChars (sep : Char) : List Char → List (List Char)
  | [] => [[]]
  | c :: r =>
    if c = sep then [] :: cutChars sep r
    else
      match cutChars sep r with
      | p :: ps => (c :: p) :: ps
      | [] => [[c]]

/-- The runs with a separator between each two. -/
def joinChars (sep : Char) : List (List Char) → List Char
  | [] => []
  | [p] => p
  | p :: q :: ps => p ++ sep :: joinChars sep (q :: ps)

theorem cutChars_ne_nil (sep : Char) (cs : List Char) : cutChars sep cs ≠ [] := by
  cases cs with
  | nil => simp [cutChars]
  | cons c r =>
    simp only [cutChars]
    split
    · simp
    · split <;> simp

theorem joinChars_cons_cons (sep c : Char) (p : List Char) (ps : List (List Char)) :
    joinChars sep ((c :: p) :: ps) = c :: joinChars sep (p :: ps) := by
  cases ps <;> simp [joinChars]

theorem joinChars_cutChars (sep : Char) (cs : List Char) :
    joinChars sep (cutChars sep cs) = cs := by
  induction cs with
  | nil => rfl
  | cons c r ih =>
    simp only [cutChars]
    split
    · rename_i h
      cases hc : cutChars sep r with
      | nil => exact absurd hc (cutChars_ne_nil sep r)
      | cons p ps => rw [hc] at ih; simp [joinChars, ih, h]
    · cases hc : cutChars sep r with
      | nil => exact absurd hc (cutChars_ne_nil sep r)
      | cons p ps => rw [hc] at ih; simp [joinChars_cons_cons, ih]

/-- Cutting distributes over a separator: nothing crosses it. -/
theorem cutChars_append_sep (sep : Char) (cs ds : List Char) :
    cutChars sep (cs ++ sep :: ds) = cutChars sep cs ++ cutChars sep ds := by
  induction cs with
  | nil => simp [cutChars]
  | cons c r ih =>
    simp only [List.cons_append, cutChars]
    split
    · simp [ih]
    · rw [ih]
      cases hc : cutChars sep r with
      | nil => exact absurd hc (cutChars_ne_nil sep r)
      | cons p ps => simp

/-! ## §2. Strings. -/

/-- The pieces of a string between the separators. -/
def cutText (sep : Char) (s : String) : List String :=
  (cutChars sep s.toList).map String.ofList

/-- The strings with a separator between each two. -/
def joinText (sep : Char) (ss : List String) : String :=
  String.ofList (joinChars sep (ss.map String.toList))

/-- The part of a string after its last separator, and the part before it if there is one. -/
def lastPiece (sep : Char) (s : String) : Option String × String :=
  match (cutText sep s).reverse with
  | [] => (none, s)
  | [p] => (none, p)
  | p :: ps => (some (joinText sep ps.reverse), p)

/-- What is left of `s` after the characters of `p`, if it begins with them. -/
def afterStart? (p s : String) : Option String :=
  if p.toList.isPrefixOf s.toList then some (String.ofList (s.toList.drop p.length)) else none

/-- What is left of `s` before the characters of `p`, if it ends with them. -/
def beforeEnd? (p s : String) : Option String :=
  if p.toList.isSuffixOf s.toList then some (String.ofList (s.toList.take (s.length - p.length)))
  else none

end ModuleMove
