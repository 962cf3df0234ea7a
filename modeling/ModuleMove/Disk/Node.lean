/-!
# NODES — trees of files and directories

A node is a file with its content or a directory with its entries.  Every change of a tree is one
change at one place: `alterAt` says what becomes of the node that is there, if one is.
-/

namespace ModuleMove

/-- What a file holds. -/
inductive Content where
  /-- A text. -/
  | text (value : String)
  /-- Bytes that are no text. -/
  | bytes (value : List UInt8)
  deriving DecidableEq, Repr, Inhabited

/-- A file or a directory. -/
inductive Node where
  /-- A file. -/
  | file (content : Content)
  /-- A directory; no two entries have one name. -/
  | directory (entries : List (String × Node))
  deriving Inhabited

namespace Node

/-! ## §1. Looking. -/

/-- The entries of a directory; a file has none. -/
def entries : Node → List (String × Node)
  | file _ => []
  | directory es => es

/-- Whether a node is a directory. -/
def isDirectory : Node → Bool
  | file _ => false
  | directory _ => true

/-- The node that is listed under a name. -/
def child? (name : String) : List (String × Node) → Option Node
  | [] => none
  | (k, n) :: es => if k = name then some n else child? name es

/-- The node at a place, given by the names on the way. -/
def find? : List String → Node → Option Node
  | [], n => some n
  | k :: ks, n => (child? k n.entries).bind (find? ks)

/-! ## §2. Changing. -/

/-- Changes what is listed under a name. -/
def alterEntry (name : String) (f : Option Node → Option Node) :
    List (String × Node) → List (String × Node)
  | [] => ((f none).map fun n => (name, n)).toList
  | (k, n) :: es =>
    if k = name then ((f (some n)).map fun m => (k, m)).toList ++ es
    else (k, n) :: alterEntry name f es

/-- Changes what is at a place; where the way to it does not lead through directories, nothing
    changes. -/
def alterAt (f : Option Node → Option Node) : List String → Option Node → Option Node
  | [], n => f n
  | k :: ks, some (directory es) => some (directory (alterEntry k (alterAt f ks) es))
  | _ :: _, n => n

/-! ## §3. Laws. -/

theorem child?_alterEntry_self (name : String) (f : Option Node → Option Node)
    (es : List (String × Node)) (h : (es.map (·.1)).Nodup) :
    child? name (alterEntry name f es) = f (child? name es) := by
  induction es with
  | nil => cases hf : f none <;> simp [alterEntry, child?, hf]
  | cons e es ih =>
    obtain ⟨k, n⟩ := e
    simp only [List.map_cons, List.nodup_cons] at h
    by_cases hk : k = name
    · subst hk
      have hnone : child? k es = none := by
        have := h.1
        clear ih h
        induction es with
        | nil => rfl
        | cons e es ih =>
          obtain ⟨j, m⟩ := e
          simp only [List.map_cons, List.mem_cons, not_or] at this
          simp only [child?]
          rw [if_neg (fun hj => this.1 hj.symm)]
          exact ih this.2
      cases hf : f (some n) <;> simp [alterEntry, child?, hf, hnone]
    · simp [alterEntry, child?, hk, ih h.2]

theorem child?_alterEntry_of_ne {name other : String} (f : Option Node → Option Node)
    (es : List (String × Node)) (h : other ≠ name) :
    child? other (alterEntry name f es) = child? other es := by
  induction es with
  | nil => cases hf : f none <;> simp [alterEntry, child?, hf, Ne.symm h]
  | cons e es ih =>
    obtain ⟨k, n⟩ := e
    by_cases hk : k = name
    · subst hk
      cases hf : f (some n) <;> simp [alterEntry, child?, hf, Ne.symm h]
    · simp [alterEntry, child?, hk, ih]

end Node

end ModuleMove
