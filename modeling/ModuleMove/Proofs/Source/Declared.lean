import ModuleMove.Proofs.Source.Ordered

/-!
# DECLARED NAMES — which names a scan says that a file declares

A declaration at the top level has a name, or it has targets.  A walk goes down each target, and of
every part of it only to what can bind a name: not to keys, not to default values.  What it comes to
in the end is a name of some kind.  For one of these kinds, that of the word `undefined`, it has no
case.

Main statements:
  * `Walk.mem_declarePattern` — the names of targets of any depth.
  * `declared_names` — the names of a file are those that its top level binds, except for the word.
  * `undefined_not_declared` — a declaration that binds the word.
-/

namespace ModuleMove

open Scan

/-! ## §1. What binds names. -/

namespace SyntaxNode

/-- The targets that a target is made of: what a key stands for, what has a default value, the
    parts of an object or an array, and what is left of it.  Keys and default values are none. -/
def targets (n : SyntaxNode) : List SyntaxNode :=
  match n.construct with
  | .pairPattern => (n.childByField? "value").toList
  | .assignmentPattern => (n.childByField? "left").toList
  | .objectPattern => n.namedChildren
  | .arrayPattern => n.namedChildren
  | .restPattern => n.namedChildren
  | _ => []

/-- A target is another one, or is made of targets of which one has that other. -/
inductive HasTarget : SyntaxNode → SyntaxNode → Prop where
  /-- The target itself. -/
  | self (n : SyntaxNode) : HasTarget n n
  /-- A target of one that it is made of. -/
  | part {n c d : SyntaxNode} (hc : c ∈ n.targets) (hd : HasTarget c d) : HasTarget n d

/-- Whether the node is a name that is bound where it is a target. -/
def isName (n : SyntaxNode) : Prop :=
  n.construct = .identifier ∨ n.construct = .shorthandPattern ∨ n.kind = "undefined"

/-- A declaration binds the name that a node is: its own name, or a target of one of its
    variables. -/
inductive Binds : SyntaxNode → SyntaxNode → Prop where
  /-- The name of a declaration. -/
  | name {n b : SyntaxNode} (h : n.construct = .declaration)
      (hb : n.childByField? "name" = some b) : Binds n b
  /-- A name in the target of a variable. -/
  | target {n v target b : SyntaxNode} (h : n.construct = .variableDeclaration)
      (hv : v ∈ n.namedChildren) (hk : v.construct = .variableDeclarator)
      (htarget : v.childByField? "name" = some target) (hb : target.HasTarget b)
      (hname : b.isName) : Binds n b

/-- The walk overlooks that the declaration binds the node: it is the word `undefined`, in the
    target of a variable. -/
def Overlooks (n b : SyntaxNode) : Prop :=
  n.construct = .variableDeclaration ∧ b.kind = "undefined"

end SyntaxNode

/-! ## §2. Names, each once. -/

namespace Walk

variable {text : List Char} {names : List String} {x y : String} {n : SyntaxNode}
  {stack : List SyntaxNode}

theorem mem_declare : x ∈ declare names y ↔ x ∈ names ∨ x = y ∧ x ≠ "" := by
  unfold declare
  simp only [Bool.or_eq_true, beq_iff_eq, List.contains_iff_mem]
  split
  · grind
  · grind

theorem nodup_declare (h : names.Nodup) (y : String) : (declare names y).Nodup := by
  unfold declare
  simp only [Bool.or_eq_true, beq_iff_eq, List.contains_iff_mem]
  split
  · exact h
  · rename_i hy
    rw [← List.concat_eq_append]
    exact h.concat fun hmem => hy (.inr hmem)

/-! ## §3. Targets. -/

/-- The walk takes the name from a target: one that it is made of is a name of a kind that the
    walk has a case for. -/
def Takes (text : List Char) (n : SyntaxNode) (x : String) : Prop :=
  ∃ b, n.HasTarget b ∧ (b.construct = .identifier ∨ b.construct = .shorthandPattern) ∧
    b.textIn text = x

theorem takes_of_name (h : n.construct = .identifier ∨ n.construct = .shorthandPattern) :
    Takes text n x ↔ x = n.textIn text := by
  have hnone : n.targets = [] := by
    unfold SyntaxNode.targets
    rcases h with h | h <;> rw [h]
  constructor
  · rintro ⟨b, hb, -, rfl⟩
    cases hb with
    | self => rfl
    | part hc _ =>
      rw [hnone] at hc
      cases hc
  · rintro rfl
    exact ⟨n, .self n, h, rfl⟩

theorem takes_of_targets (h : n.construct ≠ .identifier) (h' : n.construct ≠ .shorthandPattern) :
    Takes text n x ↔ ∃ c ∈ n.targets, Takes text c x := by
  constructor
  · rintro ⟨b, hb, hname, htext⟩
    cases hb with
    | self => exact (hname.elim h h').elim
    | part hc hd => exact ⟨_, hc, b, hd, hname, htext⟩
  · rintro ⟨c, hc, b, hb, hname, htext⟩
    exact ⟨b, .part hc hb, hname, htext⟩

theorem declarePattern_of_name
    (h : n.construct = .identifier ∨ n.construct = .shorthandPattern) :
    declarePattern text names (n :: stack)
      = declarePattern text (declare names (n.textIn text)) stack := by
  rcases h with h | h <;> rw [declarePattern, h]

theorem declarePattern_of_targets (h : n.construct ≠ .identifier)
    (h' : n.construct ≠ .shorthandPattern) :
    declarePattern text names (n :: stack) = declarePattern text names (n.targets ++ stack) := by
  rw [declarePattern]
  split
  · exact (h ‹_›).elim
  · exact (h' ‹_›).elim
  -- in each other case the same cases tell what the target is made of
  all_goals
    unfold SyntaxNode.targets
    simp only [*, List.nil_append]

theorem sizeAll_targets_le (n : SyntaxNode) :
    SyntaxNode.sizeAll n.targets ≤ SyntaxNode.sizeAll n.children := by
  unfold SyntaxNode.targets
  split
  · exact n.sizeAll_childByField?_le "value"
  · exact n.sizeAll_childByField?_le "left"
  · exact n.sizeAll_namedChildren_le
  · exact n.sizeAll_namedChildren_le
  · exact n.sizeAll_namedChildren_le
  · exact Nat.zero_le _

/-- **The names of targets of any depth.** -/
theorem mem_declarePattern (stack : List SyntaxNode) (names : List String) :
    x ∈ declarePattern text names stack ↔
      x ∈ names ∨ (∃ n ∈ stack, Takes text n x) ∧ x ≠ "" := by
  match stack with
  | [] => simp [declarePattern]
  | n :: stack =>
    by_cases h : n.construct = .identifier ∨ n.construct = .shorthandPattern
    · rw [declarePattern_of_name h, mem_declarePattern stack, mem_declare]
      simp only [List.mem_cons, exists_eq_or_imp, takes_of_name h]
      tauto
    · obtain ⟨hname, hshorthand⟩ := not_or.1 h
      rw [declarePattern_of_targets hname hshorthand, mem_declarePattern (n.targets ++ stack)]
      simp only [List.mem_append, List.mem_cons, or_and_right, exists_or, exists_eq_left,
        takes_of_targets hname hshorthand]
termination_by SyntaxNode.sizeAll stack
decreasing_by
  · simp only [SyntaxNode.sizeAll_cons]
    omega
  · have hle := sizeAll_targets_le n
    simp only [SyntaxNode.sizeAll_cons, SyntaxNode.sizeAll_append]
    omega

theorem nodup_declarePattern (h : names.Nodup) : (declarePattern text names stack).Nodup := by
  fun_induction declarePattern text names stack with
  | case1 names => exact h
  | case2 names n stack _ ih => exact ih (nodup_declare h _)
  | case3 names n stack _ ih => exact ih (nodup_declare h _)
  | case4 | case5 | case6 | case7 | case8 | case9 => rename_i ih; exact ih h

/-! ## §4. Declarations. -/

theorem mem_declareName : x ∈ declareName text names n ↔
    x ∈ names ∨ (∃ b, n.childByField? "name" = some b ∧ b.textIn text = x) ∧ x ≠ "" := by
  unfold declareName
  cases n.childByField? "name" with
  | none => simp
  | some b => simp [mem_declare, eq_comm]

theorem mem_declareVariables : x ∈ declareVariables text names n ↔ x ∈ names ∨
    (∃ v ∈ n.namedChildren, v.construct = .variableDeclarator ∧
      ∃ target, v.childByField? "name" = some target ∧ Takes text target x) ∧ x ≠ "" := by
  have hfold : ∀ (targets : List SyntaxNode) (names : List String),
      x ∈ targets.foldl (fun names target => declarePattern text names [target]) names ↔
        x ∈ names ∨ (∃ target ∈ targets, Takes text target x) ∧ x ≠ "" := by
    intro targets
    induction targets with
    | nil => simp
    | cons target targets ih =>
      intro names
      rw [List.foldl_cons, ih, mem_declarePattern]
      simp only [List.mem_cons, List.not_mem_nil, or_false, exists_eq_or_imp, exists_eq_left]
      tauto
  unfold declareVariables
  rw [hfold]
  simp only [List.mem_filterMap, List.mem_filter, beq_iff_eq]
  grind

theorem nodup_declareVariables (h : names.Nodup) : (declareVariables text names n).Nodup := by
  unfold declareVariables
  dsimp only
  generalize (n.namedChildren.filter (·.construct == .variableDeclarator)).filterMap
    (·.childByField? "name") = targets
  induction targets generalizing names with
  | nil => exact h
  | cons target targets ih => exact ih (nodup_declarePattern h)

theorem nodup_declaredBy (h : names.Nodup) : (declaredBy text names n).Nodup := by
  unfold declaredBy
  split
  · unfold declareName
    split
    · exact nodup_declare h _
    · exact h
  · exact nodup_declareVariables h
  · exact h

/-- **What a declaration declares** are the names that it binds, but for the overlooked ones. -/
theorem mem_declaredBy : x ∈ declaredBy text names n ↔
    x ∈ names ∨ (∃ b, n.Binds b ∧ ¬ n.Overlooks b ∧ b.textIn text = x) ∧ x ≠ "" := by
  unfold declaredBy
  split
  · rename_i hk
    rw [mem_declareName]
    refine or_congr_right (and_congr_left' ⟨?_, ?_⟩)
    · rintro ⟨b, hb, htext⟩
      refine ⟨b, .name hk hb, ?_, htext⟩
      rintro ⟨hvariables, -⟩
      rw [hk] at hvariables
      cases hvariables
    · rintro ⟨b, hb, -, htext⟩
      cases hb with
      | name h hb => exact ⟨b, hb, htext⟩
      | target h => simp [hk] at h
  · rename_i hk
    rw [mem_declareVariables]
    refine or_congr_right (and_congr_left' ⟨?_, ?_⟩)
    · rintro ⟨v, hv, hvk, target, htarget, b, hb, hname, htext⟩
      refine ⟨b, .target hk hv hvk htarget hb (hname.imp_right .inl), ?_, htext⟩
      rintro ⟨-, hundefined⟩
      unfold SyntaxNode.construct at hname
      rw [hundefined] at hname
      rcases hname with hname | hname <;> cases hname
    · rintro ⟨b, hb, hseen, htext⟩
      cases hb with
      | name h => simp [hk] at h
      | target h hv hvk htarget hb hname =>
        have hname : b.construct = .identifier ∨ b.construct = .shorthandPattern := by
          rcases hname with hname | hname | hname
          · exact .inl hname
          · exact .inr hname
          · exact (hseen ⟨hk, hname⟩).elim
        exact ⟨_, hv, hvk, _, htarget, b, hb, hname, htext⟩
  · rename_i hdeclaration hvariables
    refine ⟨.inl, ?_⟩
    rintro (h | ⟨⟨b, hb, -⟩, -⟩)
    · exact h
    · cases hb with
      | name h => exact (hdeclaration h).elim
      | target h => exact (hvariables h).elim

/-! ## §5. Files. -/

theorem mem_declared_foldl {w : Walk} (ps : List (SyntaxNode × Bool)) (s : Findings) :
    x ∈ (ps.foldl w.after s).declared ↔ x ∈ s.declared ∨
      (∃ n b, (n, true) ∈ ps ∧ n.Binds b ∧ ¬ n.Overlooks b ∧ b.textIn w.text = x) ∧ x ≠ "" := by
  induction ps generalizing s with
  | nil => simp
  | cons p ps ih =>
    obtain ⟨n, top⟩ := p
    rw [List.foldl_cons, ih, after, visit_eq]
    cases top with
    | false => simp
    | true =>
      simp only [if_true, mem_declaredBy, List.mem_cons, Prod.mk.injEq, and_true]
      grind

theorem nodup_declared_foldl {w : Walk} (ps : List (SyntaxNode × Bool)) (s : Findings)
    (h : s.declared.Nodup) : (ps.foldl w.after s).declared.Nodup := by
  induction ps generalizing s with
  | nil => exact h
  | cons p ps ih =>
    rw [List.foldl_cons]
    refine ih _ ?_
    rw [after, visit_eq]
    dsimp only
    split
    · exact nodup_declaredBy h
    · exact h

end Walk

/-- **The names of a file are those that its top level binds**, each once, except for the word
    `undefined` as a target. -/
theorem declared_names {parse : Parser} (hparse : parse.Documented) {path : Path}
    {source : String} {f : ScannedFile} (h : scanWith parse path source = .ok f) :
    ∃ t, parse f.language source = some t ∧ f.declared.Nodup ∧
      ∀ x, x ∈ f.declared ↔ x ≠ "" ∧ ∃ n b, t.TopLevel n ∧ n.Binds b ∧ ¬ n.Overlooks b ∧
        b.textIn source.toList = x := by
  obtain ⟨language, t, -, ht, hgood, rfl⟩ := scanWith_eq_ok_iff.1 h
  have hlawful := hparse.lawful language source t ht hgood
  have hrun := (t.walk path source).run_eq [(t.root, false)] .none
  rw [List.flatMap_singleton] at hrun
  refine ⟨t, ht, ?_, fun x => ?_⟩
  · show ((t.walk path source).run [(t.root, false)] .none).declared.Nodup
    rw [hrun]
    exact Walk.nodup_declared_foldl _ _ List.nodup_nil
  · show x ∈ ((t.walk path source).run [(t.root, false)] .none).declared ↔ _
    rw [hrun, Walk.mem_declared_foldl]
    simp only [SyntaxTree.mem_walked_iff hlawful]
    show x ∈ [] ∨ _ ↔ _
    rw [and_comm]
    simp only [List.not_mem_nil, false_or]
    rfl

/-- An exported declaration with patterns inside of patterns, and a function with a declaration of
    its own. -/
def nestedPatternsText : String :=
  "export const \x7ba: [b, ...c], [d]: e = f, g = h\x7d = i;\nfunction j() \x7b const k = l; \x7d\n"

/-- What is known about the file. -/
def nestedPatternsFile : ScannedFile where
  path := ⟨"/a.ts"⟩
  language := .typeScript
  references := []
  declared := ["b", "c", "e", "g", "j"]
  exportStatements := [⟨0, 51⟩]

/-- Keys, default values and what the function declares are not among the names. -/
theorem nested_patterns_declared :
    scanWith Grammar.parse ⟨"/a.ts"⟩ nestedPatternsText = .ok nestedPatternsFile ∧
      ∃ t, Grammar.parse .typeScript nestedPatternsText = some t ∧
        nestedPatternsFile.declared.Nodup ∧ ∀ x, x ∈ nestedPatternsFile.declared ↔
          x ≠ "" ∧ ∃ n b, t.TopLevel n ∧ n.Binds b ∧ ¬ n.Overlooks b ∧
            b.textIn nestedPatternsText.toList = x := by
  have hoption : (scan ⟨"/a.ts"⟩ nestedPatternsText).toOption = some nestedPatternsFile := by
    decide +kernel
  have hscan : scanWith Grammar.parse ⟨"/a.ts"⟩ nestedPatternsText = .ok nestedPatternsFile :=
    eq_ok_of_toOption hoption
  have hdeclared := declared_names Grammar.documented hscan
  exact ⟨hscan, hdeclared⟩

/-- A declaration that binds the word `undefined` in a pattern. -/
def undefinedText : String := "const [undefined] = xs;\n"

/-- The word is not among the names, although a declaration at the top level binds it. -/
theorem undefined_not_declared : ∃ f t n b, scan ⟨"/a.ts"⟩ undefinedText = .ok f ∧
    Grammar.parse .typeScript undefinedText = some t ∧ t.TopLevel n ∧ n.Binds b ∧
      b.textIn undefinedText.toList = "undefined" ∧ "undefined" ∉ f.declared := by
  have hoption : (scan ⟨"/a.ts"⟩ undefinedText).toOption.map (·.declared) = some [] := by
    decide +kernel
  obtain ⟨f, hf, hdeclared⟩ := Option.map_eq_some_iff.1 hoption
  -- the way from the whole file down to the word
  have hway : ((Grammar.parse .typeScript undefinedText).bind fun t =>
      t.root.children.head?.bind fun n => n.namedChildren.head?.bind fun v =>
        (v.childByField? "name").bind fun target => target.namedChildren.head?.map fun b =>
          (n.construct, v.construct, target.construct, b.kind, b.textIn undefinedText.toList)) =
      some (.variableDeclaration, .variableDeclarator, .arrayPattern, "undefined",
        "undefined") := by
    decide +kernel
  simp only [Option.bind_eq_some_iff, Option.map_eq_some_iff, Prod.mk.injEq] at hway
  obtain ⟨t, ht, n, hn, v, hv, target, htarget, b, hb, hnk, hvk, htargetk, hbk, htext⟩ := hway
  have hpart : b ∈ target.targets := by
    unfold SyntaxNode.targets
    rw [htargetk]
    exact List.mem_of_mem_head? hb
  refine ⟨f, t, n, b, eq_ok_of_toOption hf, ht, .direct (List.mem_of_mem_head? hn), ?_, htext, ?_⟩
  · exact .target hnk (List.mem_of_mem_head? hv) hvk htarget (.part hpart (.self b))
      (.inr (.inr hbk))
  · rw [hdeclared]
    exact List.not_mem_nil

end ModuleMove
