import ModuleMove.Source.Lawful
import ModuleMove.Source.Walk

/-!
# WALKED TREES — what a walk visits, and what it finds

A walk keeps a stack of nodes, but what it visits can be told node by node: the node itself, and
then what is visited inside of it, unless the node has told everything.  All that a walk finds is
what the visited nodes make, one after the other.

Main statements:
  * `Walk.run_eq` — a walk visits the nodes on its stack and those inside of them, in this order.
  * `Walk.references_run` — the references that it finds.
  * `SyntaxTree.mem_walked_iff` — what it visits at the top level.
-/

namespace ModuleMove

/-! ## §1. Nodes inside of nodes. -/

namespace SyntaxNode

variable {n c : SyntaxNode} {name : String}

theorem size_lt_of_mem (h : c ∈ n.children) : c.size < n.size := by
  obtain ⟨before, behind, hchildren⟩ := List.append_of_mem h
  rw [n.size_eq, hchildren, sizeAll_append, sizeAll_cons, c.size_eq]
  omega

/-- What holds of a node if it holds of those directly inside, holds of all. -/
theorem induction {P : SyntaxNode → Prop} (h : ∀ n, (∀ c ∈ n.children, P c) → P n)
    (n : SyntaxNode) : P n :=
  h n fun c _ => induction h c
termination_by n.size
decreasing_by exact size_lt_of_mem ‹_›

theorem mem_of_childByField? (h : n.childByField? name = some c) : c ∈ n.children :=
  List.mem_of_find?_eq_some h

theorem field_of_childByField? (h : n.childByField? name = some c) : c.field = some name := by
  simpa using List.find?_some h

theorem mem_of_childOfKind? {k : Construct} (h : n.childOfKind? k = some c) : c ∈ n.children :=
  List.mem_of_find?_eq_some h

/-! ## §2. What is visited. -/

/-- Whether the nodes inside are visited too. -/
def descends (n : SyntaxNode) : Bool :=
  match n.construct with
  | .importStatement => false
  | .exportStatement => (n.childByField? "source").isNone
  | _ => true

mutual

/-- The nodes that are visited from here down, in this order; each with whether it is at the top
    level. -/
def walked (top : Bool) : SyntaxNode → List (SyntaxNode × Bool)
  | ⟨kind, field, named, missing, span, cs⟩ =>
    let n : SyntaxNode := ⟨kind, field, named, missing, span, cs⟩
    (n, top) :: if n.descends then walkedAll (Walk.topInside n top) cs else []

/-- The nodes that are visited from these down. -/
def walkedAll (top : Bool) : List SyntaxNode → List (SyntaxNode × Bool)
  | [] => []
  | n :: ns => n.walked top ++ walkedAll top ns

end

theorem walkedAll_eq (top : Bool) (ns : List SyntaxNode) :
    walkedAll top ns = ns.flatMap (walked top) := by
  induction ns with
  | nil => rfl
  | cons n ns ih => rw [walkedAll, ih, List.flatMap_cons]

theorem walked_eq (top : Bool) (n : SyntaxNode) : n.walked top =
    (n, top) :: if n.descends then n.children.flatMap (walked (Walk.topInside n top)) else [] := by
  obtain ⟨kind, field, named, missing, span, cs⟩ := n
  rw [walked, walkedAll_eq]

/-- What is visited stands from the node down. -/
theorem has_of_mem_walked (n : SyntaxNode) :
    ∀ (top : Bool) (p : SyntaxNode × Bool), p ∈ n.walked top → n.Has p.1 := by
  induction n using induction with
  | _ n ih =>
    intro top p hp
    rw [walked_eq, List.mem_cons] at hp
    rcases hp with rfl | hp
    · exact .self n
    · split at hp
      · obtain ⟨c, hc, hp⟩ := List.mem_flatMap.1 hp
        exact .inside hc (ih c hc _ p hp)
      · cases hp

end SyntaxNode

/-! ## §3. What a node makes. -/

namespace Walk

open SyntaxNode

variable {w : Walk} {n d : SyntaxNode} {r : Reference} {top : Bool} {x : String}

/-- The reference that a node makes when it is visited. -/
def made? (w : Walk) (n : SyntaxNode) : Option Reference :=
  match n.construct with
  | .importStatement => w.visitImport n
  | .exportStatement => (n.childByField? "source").bind (w.visitExport n)
  | .callExpression => w.visitCall n
  | _ => none

/-- The names with those that a node declares when it is visited at the top level. -/
def declaredBy (text : List Char) (names : List String) (n : SyntaxNode) : List String :=
  match n.construct with
  | .declaration => declareName text names n
  | .variableDeclaration => declareVariables text names n
  | _ => names

/-- The places of the export statements that a node is at the top level. -/
def exportsBy (n : SyntaxNode) : List Span :=
  match n.construct with
  | .exportStatement => [n.span]
  | _ => []

theorem visit_eq (w : Walk) (n : SyntaxNode) (top : Bool) (s : Findings) :
    w.visit n top s =
      (⟨s.references ++ (w.made? n).toList,
        if top then declaredBy w.text s.declared n else s.declared,
        if top then s.exportStatements ++ exportsBy n else s.exportStatements⟩,
        n.descends) := by
  obtain ⟨references, declared, exportStatements⟩ := s
  unfold visit made? declaredBy exportsBy descends Findings.withReference
  cases hk : n.construct with
  | exportStatement =>
    cases n.childByField? "source" <;> cases top <;> simp [Findings.withExport]
  | _ => cases top <;> simp

/-- What has been found after one more node. -/
def after (w : Walk) (s : Findings) (p : SyntaxNode × Bool) : Findings := (w.visit p.1 p.2 s).1

/-- **A walk visits the nodes on its stack and those inside of them, in this order.** -/
theorem run_eq (w : Walk) (stack : List (SyntaxNode × Bool)) (s : Findings) :
    w.run stack s = (stack.flatMap fun p => p.1.walked p.2).foldl w.after s := by
  fun_induction Walk.run w stack s with
  | case1 s => rfl
  | case2 s n top stack s' hvisit ih =>
    have hdown : n.descends = true := by rw [visit_eq] at hvisit; exact (Prod.mk.inj hvisit).2
    have hafter : w.after s (n, top) = s' := by rw [after, hvisit]
    simp only [List.map_subtype, List.unattach_attach] at ih
    rw [ih, List.flatMap_cons, walked_eq, if_pos hdown, List.cons_append, List.foldl_cons, hafter,
      List.flatMap_append, List.flatMap_map]
  | case3 s n top stack s' down hvisit hdown ih =>
    have hdown : n.descends = false := by
      rw [visit_eq] at hvisit
      rw [(Prod.mk.inj hvisit).2]
      simpa using hdown
    have hafter : w.after s (n, top) = s' := by rw [after, hvisit]
    rw [ih, List.flatMap_cons, walked_eq, hdown, List.cons_append, List.foldl_cons, hafter]
    rfl

/-! ## §4. What is found. -/

theorem references_foldl (w : Walk) (ps : List (SyntaxNode × Bool)) (s : Findings) :
    (ps.foldl w.after s).references =
      s.references ++ ps.filterMap fun p => w.made? p.1 := by
  induction ps generalizing s with
  | nil => simp
  | cons p ps ih =>
    rw [List.foldl_cons, ih, after, visit_eq, List.filterMap_cons]
    cases w.made? p.1 <;> simp

theorem mem_exportStatements_foldl {ps : List (SyntaxNode × Bool)} {s : Findings} {t : Span} :
    t ∈ (ps.foldl w.after s).exportStatements ↔
      t ∈ s.exportStatements ∨ ∃ n, (n, true) ∈ ps ∧ t ∈ exportsBy n := by
  induction ps generalizing s with
  | nil => simp
  | cons p ps ih =>
    obtain ⟨n, top⟩ := p
    rw [List.foldl_cons, ih, after, visit_eq]
    cases top <;> simp [or_assoc, or_and_right, exists_or]

/-- The references that a node and those inside of it make, in the order in which they are
    visited. -/
def referencesOf (w : Walk) (top : Bool) (n : SyntaxNode) : List Reference :=
  (n.walked top).filterMap fun p => w.made? p.1

theorem referencesOf_eq (w : Walk) (top : Bool) (n : SyntaxNode) : w.referencesOf top n =
    (w.made? n).toList ++
      if n.descends then n.children.flatMap (w.referencesOf (topInside n top)) else [] := by
  unfold referencesOf
  rw [walked_eq, List.filterMap_cons]
  split
  · rename_i hnone
    rw [hnone]
    split
    · exact List.filterMap_flatMap ..
    · rfl
  · rename_i r hsome
    rw [hsome]
    split
    · exact congrArg (r :: ·) (List.filterMap_flatMap ..)
    · rfl

theorem references_run (w : Walk) (n : SyntaxNode) (top : Bool) :
    (w.run [(n, top)] .none).references = w.referencesOf top n := by
  rw [run_eq, references_foldl]
  show [] ++ ([(n, top)].flatMap fun p => p.1.walked p.2).filterMap _ = _
  rw [List.nil_append, List.flatMap_singleton]
  rfl

theorem exists_made_of_mem (h : r ∈ w.referencesOf top n) : ∃ d, n.Has d ∧ w.made? d = some r := by
  obtain ⟨p, hp, hr⟩ := List.mem_filterMap.1 h
  exact ⟨p.1, n.has_of_mem_walked top p hp, hr⟩

/-- A node below which nothing can name a module makes no references. -/
theorem referencesOf_of_silent (h : n.Silent) : w.referencesOf top n = [] := by
  refine List.eq_nil_iff_forall_not_mem.2 fun r hr => ?_
  obtain ⟨d, hd, hmade⟩ := exists_made_of_mem hr
  obtain ⟨himport, hexport, hcall⟩ := h d hd
  unfold made? at hmade
  split at hmade
  · exact himport ‹_›
  · exact hexport ‹_›
  · exact hcall ‹_›
  · cases hmade

/-- A node with nothing inside makes no references. -/
theorem referencesOf_of_leaf (h : n.children = []) : w.referencesOf top n = [] := by
  have hmade : w.made? n = none := by
    unfold made? visitImport importSource? visitCall callSource? childByField? childOfKind?
    rw [h]
    split <;> simp
  rw [referencesOf_eq, hmade, h]
  simp

end Walk

/-! ## §5. The top level. -/

/-- The nodes at the top level of a tree: those directly in the file, and those directly in an
    export statement there that names no module. -/
inductive SyntaxTree.TopLevel (t : SyntaxTree) : SyntaxNode → Prop where
  /-- A node directly in the file. -/
  | direct {n : SyntaxNode} (h : n ∈ t.root.children) : t.TopLevel n
  /-- A node directly in an export statement. -/
  | exported {n c : SyntaxNode} (hn : t.TopLevel n) (hk : n.construct = .exportStatement)
      (hsource : n.childByField? "source" = none) (hc : c ∈ n.children) : t.TopLevel c


namespace SyntaxNode

variable {text : List Char} {n c d m : SyntaxNode} {top : Bool}

/-- With a node that does not tell everything, those directly inside of it are visited. -/
theorem mem_walked_of_mem (hdown : m.descends = true) (hc : c ∈ m.children) (n : SyntaxNode) :
    ∀ (top inner : Bool), (m, inner) ∈ n.walked top →
      (c, Walk.topInside m inner) ∈ n.walked top := by
  induction n using induction with
  | _ n ih =>
    intro top inner h
    rw [walked_eq] at h ⊢
    rcases List.mem_cons.1 h with h | h
    · obtain ⟨rfl, rfl⟩ := Prod.mk.inj h
      rw [if_pos hdown]
      refine List.mem_cons_of_mem _ (List.mem_flatMap.2 ⟨c, hc, ?_⟩)
      rw [walked_eq]
      exact List.mem_cons_self
    · refine List.mem_cons_of_mem _ ?_
      split at h
      · rename_i hn
        obtain ⟨b, hb, h⟩ := List.mem_flatMap.1 h
        rw [if_pos hn]
        exact List.mem_flatMap.2 ⟨b, hb, ih b hb _ _ h⟩
      · cases h

theorem topInside_of_ne (h : n.construct ≠ .program) :
    Walk.topInside n top = (n.construct.keepsTopLevel && top) := by
  unfold Walk.topInside
  split
  · rename_i hk
    exact (h hk).elim
  · rfl

/-- Below a node that is not at the top level, nothing is. -/
theorem not_mem_walked_false (n : SyntaxNode) (hn : n.AllLawful text) :
    (d, true) ∉ n.walked false := by
  induction n using induction with
  | _ n ih =>
    intro h
    rw [walked_eq, topInside_of_ne hn.lawful.inner, Bool.and_false] at h
    rcases List.mem_cons.1 h with h | h
    · cases h
    · split at h
      · obtain ⟨c, hc, h⟩ := List.mem_flatMap.1 h
        exact ih c hc (hn.child hc) h
      · cases h

end SyntaxNode

namespace SyntaxTree

open SyntaxNode

variable {text : List Char} {t : SyntaxTree} {n d : SyntaxNode}

theorem topLevel_of_mem_walked (n : SyntaxNode) (hn : n.AllLawful text) (htop : t.TopLevel n)
    (h : (d, true) ∈ n.walked true) : t.TopLevel d := by
  induction n using SyntaxNode.induction with
  | _ n ih =>
    rw [walked_eq, topInside_of_ne hn.lawful.inner, Bool.and_true] at h
    rcases List.mem_cons.1 h with h | h
    · obtain ⟨rfl, -⟩ := Prod.mk.inj h
      exact htop
    · split at h
      · rename_i hdown
        obtain ⟨c, hc, h⟩ := List.mem_flatMap.1 h
        by_cases hk : n.construct = .exportStatement
        · have hsource : n.childByField? "source" = none := by
            unfold descends at hdown
            rw [hk] at hdown
            simpa using hdown
          rw [hk] at h
          exact ih c hc (hn.child hc) (.exported htop hk hsource hc) h
        · -- no other node keeps its own at the top level
          have hkeeps : n.construct.keepsTopLevel = false := by
            have hprogram := hn.lawful.inner
            unfold Construct.keepsTopLevel
            split
            · exact (hprogram ‹_›).elim
            · exact (hk ‹_›).elim
            · rfl
          rw [hkeeps] at h
          exact (not_mem_walked_false c (hn.child hc) h).elim
      · cases h

/-- **What a walk visits at the top level** are the nodes of the top level. -/
theorem mem_walked_iff (ht : t.Lawful text) :
    (d, true) ∈ t.root.walked false ↔ t.TopLevel d := by
  have hdown : t.root.descends = true := by
    unfold descends
    rw [ht.program]
  have htop : ∀ top, Walk.topInside t.root top = true := by
    intro top
    unfold Walk.topInside
    rw [ht.program]
  constructor
  · intro h
    rw [walked_eq, if_pos hdown, htop] at h
    rcases List.mem_cons.1 h with h | h
    · cases h
    · obtain ⟨c, hc, h⟩ := List.mem_flatMap.1 h
      exact topLevel_of_mem_walked c (ht.nodes c hc) (.direct hc) h
  · intro h
    induction h with
    | direct hd =>
      have hroot : (t.root, false) ∈ t.root.walked false := by
        rw [walked_eq]
        exact List.mem_cons_self
      have hmem := mem_walked_of_mem hdown hd t.root false false hroot
      rwa [htop] at hmem
    | @exported n c hn hk hsource hc ih =>
      have hdown : n.descends = true := by
        unfold descends
        rw [hk, hsource]
        rfl
      have hmem := mem_walked_of_mem hdown hc t.root false true ih
      have hkeeps : Walk.topInside n true = true := by
        unfold Walk.topInside
        rw [hk]
        rfl
      rwa [hkeeps] at hmem

end SyntaxTree

end ModuleMove
