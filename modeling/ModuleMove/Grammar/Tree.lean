import ModuleMove.Grammar.Mending

/-!
# TREES — the parser that reads by these rules

A text that can be read has the tree of the nodes that its readers make.  The tree of any other text
has one node, for the fault.  Places are told by numbers of 32 bits, so a longer text has no tree.

Main results:
  * `documented` — every tree without errors is lawful.
  * `length_of_parse` — a text that has a tree is not longer than that.
-/

namespace ModuleMove.Grammar

open Cursor SyntaxNode

/-! ## §1. Trees. -/

/-- The point at which byte `n` of a text stands. -/
def pointAt (text : List Char) (n : Nat) : Point :=
  go 0 0 n text
where
  /-- The row and column so far, and the bytes still to pass. -/
  go (row column : Nat) : Nat → List Char → Point
    | n + 1, c :: r =>
      if c == '\n' then go (row + 1) 0 (n + 1 - c.utf8Size) r
      else go row (column + c.utf8Size) (n + 1 - c.utf8Size) r
    | _, _ => ⟨row, column⟩

/-- The tree of a text with the given nodes. -/
def treeOf (text : List Char) (nodes : List SyntaxNode) : SyntaxTree where
  root := ⟨"program", none, true, false, ⟨0, byteLength text⟩, nodes⟩
  startOf n := pointAt text n.span.start

/-- The node for a fault. -/
def faultNode (f : Fault) : SyntaxNode :=
  match f.missing with
  | some name => ⟨name, none, true, true, ⟨f.offset, f.offset⟩, []⟩
  | none => ⟨"ERROR", none, true, false, ⟨f.offset, f.offset⟩, []⟩

/-- The parser of the languages. -/
def parse : Parser := fun language source =>
  let text := source.toList
  if Parser.lengthLimit ≤ byteLength text then none
  else
    some <| treeOf text <|
      match readText language source with
      | .ok ns => ns
      | .error reach => [faultNode (faultAt language source reach)]

/-! ## §2. What holds of them. -/

theorem row_go (a b : List Char) (row column : Nat) :
    (pointAt.go row column (byteLength a) (a ++ b)).row = row + a.count '\n' := by
  induction a generalizing row column with
  | nil =>
    cases b <;> rfl
  | cons c a ih =>
    have hc : 0 < c.utf8Size := c.utf8Size_pos
    obtain ⟨k, hk⟩ : ∃ k, byteLength (c :: a) = k + 1 :=
      ⟨byteLength (c :: a) - 1, by simp only [byteLength_cons]; omega⟩
    have hrest : k + 1 - c.utf8Size = byteLength a := by
      rw [byteLength_cons] at hk
      omega
    rw [hk, List.cons_append, pointAt.go, hrest]
    split
    · rename_i hlf
      rw [ih, List.count_cons, if_pos hlf]
      omega
    · rename_i hlf
      rw [ih, List.count_cons, if_neg hlf]
      omega

/-- The row of a node counts the line feeds before it. -/
theorem row_treeOf (text : List Char) (ns : List SyntaxNode) (n : SyntaxNode) :
    ∀ a b, text = a ++ b → byteLength a = n.span.start →
      ((treeOf text ns).startOf n).row = a.count '\n' := by
  intro a b htext ha
  show (pointAt.go 0 0 n.span.start text).row = _
  rw [htext, ← ha, row_go, Nat.zero_add]

/-- The nodes of a text stand in it. -/
theorem laid_of_readText {language : Language} {source : String} {ns : List SyntaxNode}
    (h : readText language source = .ok ns) :
    Laid source.toList 0 (byteLength source.toList) ns := by
  unfold readText at h
  dsimp only at h
  split at h
  · cases h
  · split at h
    · rename_i u ms n m hread
      cases h
      have hsound := (Rules.upTo language (4 * (ofText source).rest.length + 16)).document.sound
        source.toList (ofText source) (.refl _)
      unfold documentOf at hread
      rw [hread] at hsound
      obtain ⟨hn, hrow, hall⟩ := hsound
      obtain ⟨a, htext, ha⟩ := exists_of_leadsTo hn
      refine ⟨hrow.mono (Nat.le_refl _) ?_, hall⟩
      rw [htext, byteLength_append, ha]
      omega
    · cases h

theorem hasError_of_fault (text : List Char) (f : Fault) :
    (treeOf text [faultNode f]).root.hasError = true := by
  unfold treeOf faultNode
  split <;> simp [hasError, anyError]

theorem documented : parse.Documented where
  lawful language source t ht hgood := by
    unfold parse at ht
    dsimp only at ht
    split at ht
    · cases ht
    · obtain rfl := Option.some.inj ht
      cases hread : readText language source with
      | error reach =>
        rw [hread] at hgood
        rw [hasError_of_fault] at hgood
        cases hgood
      | ok ns =>
        have hlaid := laid_of_readText hread
        exact {
          program := rfl
          nested := hlaid.1
          nodes := hlaid.2
          rows := fun n _ => row_treeOf source.toList ns n }

theorem length_of_parse {language : Language} {source : String} {t : SyntaxTree}
    (h : parse language source = some t) : byteLength source.toList < Parser.lengthLimit := by
  unfold parse at h
  dsimp only at h
  split at h
  · cases h
  · omega

end ModuleMove.Grammar
