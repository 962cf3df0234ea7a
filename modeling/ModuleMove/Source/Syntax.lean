import ModuleMove.Source.Construct
import ModuleMove.Source.Language
import ModuleMove.Source.Span
import ModuleMove.Text.Bytes

/-!
# SYNTAX TREES — what a parser makes of a text

A parser turns a text into a tree of nodes.  Each node has the name of its kind, the bytes that
it covers, and the nodes directly inside of it, in the order of the text.  What is wrong with a
text is in its tree too: as a node for something unexpected, or as a node for something missing.
Nothing is said here about where nodes stand or which kinds of nodes stand in which others.
-/

namespace ModuleMove

/-! ## §1. Nodes and trees. -/

/-- A node of a syntax tree. -/
structure SyntaxNode where
  /-- The name of its kind. -/
  kind : String
  /-- What it is to the node that it is directly inside of. -/
  field : Option String
  /-- It has a rule of the grammar to itself; otherwise it is a piece of text. -/
  named : Bool
  /-- It is not in the text, although it should be. -/
  missing : Bool
  /-- The bytes that it covers. -/
  span : Span
  /-- The nodes directly inside of it. -/
  children : List SyntaxNode
  deriving Repr, Inhabited

/-- A row and a column of a text, of which the first are zero; columns count bytes. -/
structure Point where
  /-- The row. -/
  row : Nat
  /-- The column. -/
  column : Nat
  deriving DecidableEq, Repr

/-- The syntax tree of a text. -/
structure SyntaxTree where
  /-- The node of the whole text. -/
  root : SyntaxNode
  /-- The point at which a node begins. -/
  startOf : SyntaxNode → Point

/-- A parser for each language; without a tree, it has given up. -/
abbrev Parser := Language → String → Option SyntaxTree

/-- Offsets in a text that is parsed are numbers of 32 bits. -/
def Parser.lengthLimit : Nat := 0x100000000

namespace SyntaxNode

/-! ## §2. Looking at a node. -/

/-- What the node is. -/
def construct (n : SyntaxNode) : Construct := .ofName n.kind

/-- The nodes directly inside that have a rule of the grammar to themselves. -/
def namedChildren (n : SyntaxNode) : List SyntaxNode := n.children.filter (·.named)

/-- The first node directly inside that is the field of the given name. -/
def childByField? (n : SyntaxNode) (name : String) : Option SyntaxNode :=
  n.children.find? (·.field == some name)

/-- The first node directly inside of the given kind. -/
def childOfKind? (n : SyntaxNode) (k : Construct) : Option SyntaxNode :=
  n.children.find? (·.construct == k)

/-- Whether the node is for something unexpected. -/
def isError (n : SyntaxNode) : Bool := n.kind == "ERROR"

/-- The text of a node. -/
def textIn (text : List Char) (n : SyntaxNode) : String :=
  ((betweenBytes? text n.span.start n.span.stop).map String.ofList).getD ""

/-! ## §3. Sizes. -/

mutual

/-- The number of nodes from here down. -/
def size : SyntaxNode → Nat
  | ⟨_, _, _, _, _, cs⟩ => 1 + sizeAll cs

/-- The number of nodes from these down. -/
def sizeAll : List SyntaxNode → Nat
  | [] => 0
  | n :: ns => n.size + sizeAll ns

end

theorem size_eq (n : SyntaxNode) : n.size = 1 + sizeAll n.children := by
  cases n
  rfl

@[simp] theorem sizeAll_nil : sizeAll [] = 0 := rfl

@[simp] theorem sizeAll_cons (n : SyntaxNode) (ns : List SyntaxNode) :
    sizeAll (n :: ns) = 1 + sizeAll n.children + sizeAll ns := by
  rw [← size_eq]
  rfl

@[simp] theorem sizeAll_append (ns ms : List SyntaxNode) :
    sizeAll (ns ++ ms) = sizeAll ns + sizeAll ms := by
  induction ns with
  | nil => simp
  | cons n ns ih => simp [ih, Nat.add_assoc]

theorem sizeAll_filter_le (p : SyntaxNode → Bool) (ns : List SyntaxNode) :
    sizeAll (ns.filter p) ≤ sizeAll ns := by
  induction ns with
  | nil => exact Nat.le_refl _
  | cons n ns ih =>
    rw [List.filter_cons]
    split
    · rw [sizeAll_cons, sizeAll_cons]
      omega
    · rw [sizeAll_cons]
      omega

theorem sizeAll_namedChildren_le (n : SyntaxNode) :
    sizeAll n.namedChildren ≤ sizeAll n.children := sizeAll_filter_le _ _

theorem sizeAll_find?_le (p : SyntaxNode → Bool) (ns : List SyntaxNode) :
    sizeAll (ns.find? p).toList ≤ sizeAll ns := by
  induction ns with
  | nil => exact Nat.le_refl _
  | cons n ns ih =>
    rw [List.find?_cons]
    split
    · simp
    · rw [sizeAll_cons]
      omega

theorem sizeAll_childByField?_le (n : SyntaxNode) (name : String) :
    sizeAll (n.childByField? name).toList ≤ sizeAll n.children := sizeAll_find?_le _ _

/-! ## §4. Errors. -/

mutual

/-- Whether something is unexpected or missing from here down. -/
def hasError : SyntaxNode → Bool
  | ⟨kind, _, _, missing, _, cs⟩ => kind == "ERROR" || missing || anyError cs

/-- Whether something is unexpected or missing from these down. -/
def anyError : List SyntaxNode → Bool
  | [] => false
  | n :: ns => n.hasError || anyError ns

end

/-- The first node for something unexpected or missing; `stack` are the nodes still to be looked
    at, the next one first. -/
def firstError? (stack : List SyntaxNode) : Option SyntaxNode :=
  match stack with
  | [] => none
  | n :: stack =>
    if n.isError || n.missing then some n
    else if !n.hasError then firstError? stack
    else firstError? (n.children ++ stack)
termination_by sizeAll stack
decreasing_by all_goals simp; try omega

end SyntaxNode

end ModuleMove
