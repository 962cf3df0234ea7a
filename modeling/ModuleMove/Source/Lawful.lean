import ModuleMove.Source.Syntax

/-!
# LAWFUL TREES — what can be relied on in the tree of a text without errors

A parser that works lets nodes nest and puts those inside of a node in the order of the text.  The
grammars of the languages add what little is asked of single kinds: only the first node is a whole
file, a string stands between equal quotes and holds no statements, a call holds its arguments
behind its callee, and an export statement begins with its word or with a decorator.

Main definitions:
  * `SyntaxNode.Lawful` — what holds of one node.
  * `SyntaxTree.Lawful` — what holds of the tree of a text.
  * `Parser.Documented` — every tree without errors is lawful.
-/

namespace ModuleMove

/-! ## §1. Places in a text. -/

/-- A character begins at byte `n`, or the text stops there. -/
def IsBoundary (text : List Char) (n : Nat) : Prop := ∃ a b, text = a ++ b ∧ byteLength a = n

/-- The span is that of some characters between two equal quotes. -/
def IsQuoted (text : List Char) (s : Span) : Prop :=
  ∃ a q cs b, text = a ++ q :: (cs ++ q :: b) ∧ (q = '\'' ∨ q = '"') ∧
    s = ⟨byteLength a, byteLength a + byteLength cs + 2⟩

/-- Whether an export statement can begin at byte `n`: with its word or with a decorator. -/
def opensExport (text : List Char) (n : Nat) : Bool :=
  match partAtByte? n text with
  | some (_, c :: _) => c == 'e' || c == '@'
  | _ => false

/-- Whether an export statement can cover the span: it begins like one, and no character is cut
    where it stops. -/
def coversExport (text : List Char) (s : Span) : Bool :=
  opensExport text s.start && (partAtByte? s.stop text).isSome

/-! ## §2. Nodes. -/

namespace SyntaxNode

/-- A node is the first one or below it. -/
inductive Has : SyntaxNode → SyntaxNode → Prop where
  /-- The node itself. -/
  | self (n : SyntaxNode) : n.Has n
  /-- A node below one directly inside. -/
  | inside {n c d : SyntaxNode} (hc : c ∈ n.children) (hd : c.Has d) : n.Has d

/-- The nodes stand one behind the other between `low` and `high`. -/
def InRow (low high : Nat) : List SyntaxNode → Prop
  | [] => low ≤ high
  | n :: ns => low ≤ n.span.start ∧ n.span.start ≤ n.span.stop ∧ InRow n.span.stop high ns

/-- No node from here down can name a module. -/
def Silent (n : SyntaxNode) : Prop :=
  ∀ d, n.Has d → d.construct ≠ .importStatement ∧ d.construct ≠ .exportStatement ∧
    d.construct ≠ .callExpression

/-- What holds of a single node below the first one of a tree without errors. -/
structure Lawful (text : List Char) (n : SyntaxNode) : Prop where
  /-- It is not a whole file. -/
  inner : n.construct ≠ .program
  /-- The nodes inside stand in a row between where it begins and where it stops. -/
  nested : InRow n.span.start n.span.stop n.children
  /-- Where it begins, no character is cut. -/
  start_boundary : IsBoundary text n.span.start
  /-- Where it stops, no character is cut. -/
  stop_boundary : IsBoundary text n.span.stop
  /-- Inside of a piece of text there is nothing. -/
  piece : n.named = false → n.children = []
  /-- Inside of a name there is nothing, nor inside of the word `import`. -/
  word : n.construct = .identifier ∨ n.construct = .importKeyword → n.children = []
  /-- A string stands between equal quotes. -/
  quoted : n.construct = .stringLiteral → n.named = true → IsQuoted text n.span
  /-- Inside of a string nothing names a module. -/
  string_silent : n.construct = .stringLiteral → n.named = true → n.Silent
  /-- What names the module of a statement is no mere piece of text. -/
  source_named : n.field = some "source" → n.named = true
  /-- An export statement begins with its word or with a decorator. -/
  export_opens : n.construct = .exportStatement → opensExport text n.span.start = true
  /-- The arguments of a call are a list in parentheses or a template. -/
  arguments_kind : n.construct = .callExpression → ∀ a ∈ n.children, a.field = some "arguments" →
    a.kind = "arguments" ∨ a.kind = "template_string"
  /-- Before the arguments of a call stand its callee and types, and otherwise nothing that names a
      module. -/
  before_arguments : n.construct = .callExpression → ∀ before a behind,
    n.children = before ++ a :: behind → a.field = some "arguments" → ∀ b ∈ before,
      n.childByField? "function" = some b ∨ b.field = some "type_arguments" ∨ b.Silent
  /-- Behind the arguments of a call stand no types. -/
  behind_arguments : n.construct = .callExpression → ∀ before a behind,
    n.children = before ++ a :: behind → a.field = some "arguments" →
      ∀ b ∈ behind, b.field ≠ some "type_arguments"

/-- All nodes from here down are lawful. -/
def AllLawful (text : List Char) (n : SyntaxNode) : Prop := ∀ d, n.Has d → d.Lawful text

end SyntaxNode

/-! ## §3. Trees and parsers. -/

/-- What holds of the tree of a text without errors. -/
structure SyntaxTree.Lawful (text : List Char) (t : SyntaxTree) : Prop where
  /-- Its first node is that of a whole file. -/
  program : t.root.construct = .program
  /-- The nodes directly inside stand in a row. -/
  nested : SyntaxNode.InRow t.root.span.start t.root.span.stop t.root.children
  /-- All nodes below are lawful. -/
  nodes : ∀ n ∈ t.root.children, n.AllLawful text
  /-- The rows at which its nodes begin count the line feeds before them. -/
  rows : ∀ n, t.root.Has n → ∀ a b, text = a ++ b → byteLength a = n.span.start →
    (t.startOf n).row = a.count '\n'

/-- Every tree that a parser gives is lawful unless it has an error. -/
structure Parser.Documented (parse : Parser) : Prop where
  lawful : ∀ language source t, parse language source = some t → t.root.hasError = false →
    t.Lawful source.toList

/-! ## §4. Nodes below nodes. -/

theorem isBoundary_iff {text : List Char} {n : Nat} :
    IsBoundary text n ↔ (partAtByte? n text).isSome = true := by
  constructor
  · rintro ⟨a, b, rfl, rfl⟩
    rw [partAtByte?_append]
    rfl
  · intro h
    obtain ⟨⟨a, b⟩, hp⟩ := Option.isSome_iff_exists.1 h
    exact ⟨a, b, partAtByte?_eq_some hp⟩

namespace SyntaxNode

variable {text : List Char} {low low' mid high high' : Nat} {n m c d : SyntaxNode}
  {ns ms : List SyntaxNode}

theorem Has.trans (h : n.Has m) (h' : m.Has d) : n.Has d := by
  induction h with
  | self n => exact h'
  | inside hc _ ih => exact .inside hc (ih h')

theorem Has.of_mem (h : c ∈ n.children) : n.Has c := .inside h (.self c)

theorem has_iff : n.Has d ↔ n = d ∨ ∃ c ∈ n.children, c.Has d := by
  constructor
  · intro h
    cases h with
    | self => exact .inl rfl
    | inside hc hd => exact .inr ⟨_, hc, hd⟩
  · rintro (rfl | ⟨c, hc, hd⟩)
    · exact .self n
    · exact .inside hc hd

theorem allLawful_iff :
    n.AllLawful text ↔ n.Lawful text ∧ ∀ c ∈ n.children, c.AllLawful text := by
  constructor
  · intro h
    exact ⟨h n (.self n), fun c hc d hd => h d (.inside hc hd)⟩
  · rintro ⟨hn, hcs⟩ d hd
    rcases has_iff.1 hd with rfl | ⟨c, hc, hd⟩
    · exact hn
    · exact hcs c hc d hd

theorem AllLawful.lawful (h : n.AllLawful text) : n.Lawful text := h n (.self n)

theorem AllLawful.child (h : n.AllLawful text) (hc : c ∈ n.children) : c.AllLawful text :=
  (allLawful_iff.1 h).2 c hc

/-! ## §5. Nodes in a row. -/

theorem InRow.le (h : InRow low high ns) : low ≤ high := by
  induction ns generalizing low with
  | nil => exact h
  | cons n ns ih =>
    obtain ⟨hlow, hn, hns⟩ := h
    have hle := ih hns
    omega

theorem InRow.mono (h : InRow low high ns) (hl : low' ≤ low) (hh : high ≤ high') :
    InRow low' high' ns := by
  induction ns generalizing low low' with
  | nil =>
    have h : low ≤ high := h
    show low' ≤ high'
    omega
  | cons n ns ih =>
    obtain ⟨hlow, hn, hns⟩ := h
    exact ⟨Nat.le_trans hl hlow, hn, ih hns (Nat.le_refl _)⟩

theorem InRow.append (h : InRow low mid ns) (h' : InRow mid high ms) :
    InRow low high (ns ++ ms) := by
  induction ns generalizing low with
  | nil => exact h'.mono h (Nat.le_refl _)
  | cons n ns ih =>
    obtain ⟨hlow, hn, hns⟩ := h
    exact ⟨hlow, hn, ih hns⟩

/-- A row is parted by where its second half may begin. -/
theorem inRow_append : InRow low high (ns ++ ms) ↔
    ∃ mid, InRow low mid ns ∧ InRow mid high ms := by
  constructor
  · intro h
    induction ns generalizing low with
    | nil => exact ⟨low, Nat.le_refl low, h⟩
    | cons n ns ih =>
      obtain ⟨hlow, hn, hns⟩ := h
      obtain ⟨mid, hmid, hms⟩ := ih hns
      exact ⟨mid, ⟨hlow, hn, hmid⟩, hms⟩
  · rintro ⟨mid, hns, hms⟩
    exact hns.append hms

/-- A node of a row stands between its two ends. -/
theorem InRow.bounds (h : InRow low high ns) (hn : n ∈ ns) :
    low ≤ n.span.start ∧ n.span.start ≤ n.span.stop ∧ n.span.stop ≤ high := by
  obtain ⟨before, behind, rfl⟩ := List.append_of_mem hn
  obtain ⟨mid, hbefore, hlow, hle, hbehind⟩ := inRow_append.1 h
  exact ⟨Nat.le_trans hbefore.le hlow, hle, hbehind.le⟩

/-- What is said of where nodes stand does not depend on what they are to the node above. -/
theorem inRow_map {f : SyntaxNode → SyntaxNode} (hf : ∀ n, (f n).span = n.span) :
    InRow low high (ns.map f) ↔ InRow low high ns := by
  induction ns generalizing low with
  | nil => exact Iff.rfl
  | cons n ns ih =>
    show low ≤ (f n).span.start ∧ (f n).span.start ≤ (f n).span.stop ∧
      InRow (f n).span.stop high (ns.map f) ↔ _
    rw [hf, ih]
    exact Iff.rfl

/-! ## §6. Nodes that are lawful. -/

/-- Whether nothing but its place is asked of a node of the kind. -/
def isPlain (kind : String) : Bool :=
  match Construct.ofName kind with
  | .program => false
  | .stringLiteral => false
  | .callExpression => false
  | .exportStatement => false
  | .identifier => false
  | .importKeyword => false
  | _ => true

/-- A node with a rule of the grammar to itself that is no file, no string and no word. -/
theorem lawful_of_named (hnamed : n.named = true)
    (hkind : n.construct ≠ .program ∧ n.construct ≠ .stringLiteral ∧ n.construct ≠ .identifier ∧
      n.construct ≠ .importKeyword)
    (hexport : n.construct = .exportStatement → opensExport text n.span.start = true)
    (hcall : n.construct = .callExpression → ∀ before a behind,
      n.children = before ++ a :: behind → a.field = some "arguments" →
        (a.kind = "arguments" ∨ a.kind = "template_string") ∧
        (∀ b ∈ before, n.childByField? "function" = some b ∨ b.field = some "type_arguments" ∨
          b.Silent) ∧
        ∀ b ∈ behind, b.field ≠ some "type_arguments")
    (hnested : InRow n.span.start n.span.stop n.children)
    (hstart : IsBoundary text n.span.start) (hstop : IsBoundary text n.span.stop) :
    n.Lawful text := by
  obtain ⟨hprogram, hstring, hname, hword⟩ := hkind
  exact {
    inner := hprogram
    nested := hnested
    start_boundary := hstart
    stop_boundary := hstop
    piece := fun h => by rw [hnamed] at h; cases h
    word := fun h => (h.elim hname hword).elim
    quoted := fun h => (hstring h).elim
    string_silent := fun h => (hstring h).elim
    source_named := fun _ => hnamed
    export_opens := hexport
    arguments_kind := fun h a ha hfield => by
      obtain ⟨before, behind, hsplit⟩ := List.append_of_mem ha
      exact (hcall h before a behind hsplit hfield).1
    before_arguments := fun h before a behind hsplit hfield =>
      (hcall h before a behind hsplit hfield).2.1
    behind_arguments := fun h before a behind hsplit hfield =>
      (hcall h before a behind hsplit hfield).2.2 }

theorem lawful_of_plain (h : isPlain n.kind = true) (hnamed : n.named = true)
    (hnested : InRow n.span.start n.span.stop n.children)
    (hstart : IsBoundary text n.span.start) (hstop : IsBoundary text n.span.stop) :
    n.Lawful text := by
  have hk : n.construct ≠ .program ∧ n.construct ≠ .stringLiteral ∧
      n.construct ≠ .callExpression ∧ n.construct ≠ .exportStatement ∧
        n.construct ≠ .identifier ∧ n.construct ≠ .importKeyword := by
    unfold isPlain at h
    unfold construct
    split at h <;> simp_all
  obtain ⟨hprogram, hstring, hcall, hexport, hname, hword⟩ := hk
  exact lawful_of_named hnamed ⟨hprogram, hstring, hname, hword⟩ (fun h => (hexport h).elim)
    (fun h => (hcall h).elim) hnested hstart hstop

/-- Whether nothing but its place is asked of a node of the kind if there is nothing inside. -/
def isWord (kind : String) : Bool :=
  match Construct.ofName kind with
  | .program => false
  | .stringLiteral => false
  | .exportStatement => false
  | _ => true

theorem lawful_of_leaf (h : isWord n.kind = true) (hleaf : n.children = [])
    (hfield : n.field ≠ some "source") (hle : n.span.start ≤ n.span.stop)
    (hstart : IsBoundary text n.span.start) (hstop : IsBoundary text n.span.stop) :
    n.Lawful text := by
  have hk : n.construct ≠ .program ∧ n.construct ≠ .stringLiteral ∧
      n.construct ≠ .exportStatement := by
    unfold isWord at h
    unfold construct
    split at h <;> simp_all
  obtain ⟨hprogram, hstring, hexport⟩ := hk
  exact {
    inner := hprogram
    nested := by
      rw [hleaf]
      exact hle
    start_boundary := hstart
    stop_boundary := hstop
    piece := fun _ => hleaf
    word := fun _ => hleaf
    quoted := fun h => (hstring h).elim
    string_silent := fun h => (hstring h).elim
    source_named := fun h => (hfield h).elim
    export_opens := fun h => (hexport h).elim
    arguments_kind := fun _ a ha => by
      rw [hleaf] at ha
      cases ha
    before_arguments := fun _ before a behind h => by
      rw [hleaf] at h
      simp at h
    behind_arguments := fun _ before a behind h => by
      rw [hleaf] at h
      simp at h }

theorem has_leaf (hleaf : n.children = []) : n.Has d ↔ d = n := by
  rw [has_iff, hleaf]
  simp [eq_comm]

/-- A string with nothing inside. -/
theorem lawful_of_quoted (hleaf : n.children = []) (hstring : n.construct = .stringLiteral)
    (hnamed : n.named = true) (hquoted : IsQuoted text n.span) : n.Lawful text where
  inner h := by
    rw [hstring] at h
    cases h
  nested := by
    obtain ⟨a, q, cs, b, -, -, hs⟩ := hquoted
    rw [hleaf, hs]
    show byteLength a ≤ byteLength a + byteLength cs + 2
    omega
  start_boundary := by
    obtain ⟨a, q, cs, b, htext, -, hs⟩ := hquoted
    exact ⟨a, _, htext, by rw [hs]⟩
  stop_boundary := by
    obtain ⟨a, q, cs, b, htext, hq, hs⟩ := hquoted
    refine ⟨a ++ q :: (cs ++ [q]), b, by simp [htext], ?_⟩
    have hsize : q.utf8Size = 1 := by rcases hq with rfl | rfl <;> rfl
    rw [hs]
    simp only [byteLength_append, byteLength_cons, byteLength_nil, hsize]
    omega
  piece h := by
    rw [hnamed] at h
    cases h
  word _ := hleaf
  quoted _ _ := hquoted
  string_silent _ _ d hd := by
    obtain rfl := (has_leaf hleaf).1 hd
    simp [hstring]
  source_named _ := hnamed
  export_opens h := by
    rw [hstring] at h
    cases h
  arguments_kind h := by
    rw [hstring] at h
    cases h
  before_arguments h := by
    rw [hstring] at h
    cases h
  behind_arguments h := by
    rw [hstring] at h
    cases h

/-- Of a list that ends with one thing, nothing else stands behind another thing of it. -/
theorem split_last {α : Type} {xs before behind : List α} {a b : α}
    (h : xs ++ [a] = before ++ b :: behind) : behind = [] ∧ before = xs ∨ b ∈ xs := by
  rcases List.append_eq_append_iff.1 h with ⟨ys, hbefore, hlast⟩ | ⟨ys, hxs, hlast⟩
  · cases ys with
    | nil =>
      rw [List.append_nil] at hbefore
      exact .inl ⟨(List.cons.inj hlast).2.symm, hbefore⟩
    | cons y ys =>
      have hlength := congrArg List.length hlast
      simp only [List.length_append, List.length_cons, List.length_nil] at hlength
      omega
  · cases ys with
    | nil => exact .inl ⟨by simpa using (List.cons.inj hlast).2, by simpa using hxs.symm⟩
    | cons y ys =>
      rw [List.cons_append] at hlast
      obtain ⟨rfl, -⟩ := List.cons.inj hlast
      exact .inr (by simp [hxs])

/-- A call with its callee first and its arguments last. -/
theorem lawful_of_call (callee : SyntaxNode) (types : List SyntaxNode) {a : SyntaxNode}
    (hcall : n.construct = .callExpression) (hnamed : n.named = true)
    (hchildren : n.children = callee :: types ++ [a]) (hcallee : callee.field = some "function")
    (htypes : ∀ t ∈ types, t.field = some "type_arguments")
    (hkind : a.kind = "arguments" ∨ a.kind = "template_string")
    (hnested : InRow n.span.start n.span.stop n.children)
    (hstart : IsBoundary text n.span.start) (hstop : IsBoundary text n.span.stop) :
    n.Lawful text := by
  have hkind' : n.construct ≠ .program ∧ n.construct ≠ .stringLiteral ∧
      n.construct ≠ .identifier ∧ n.construct ≠ .importKeyword := by
    rw [hcall]
    decide
  refine lawful_of_named hnamed hkind' (fun h => ?_) (fun _ before b behind hsplit hb => ?_)
    hnested hstart hstop
  · rw [hcall] at h
    cases h
  · -- only the last node inside is the arguments
    rcases split_last (hchildren ▸ hsplit) with ⟨rfl, rfl⟩ | h
    · rw [hchildren] at hsplit
      obtain ⟨-, hlast⟩ := List.append_inj hsplit rfl
      obtain ⟨rfl, -⟩ := List.cons.inj hlast
      refine ⟨hkind, fun c hc => ?_, by simp⟩
      rcases List.mem_cons.1 hc with rfl | hc
      · left
        unfold childByField?
        rw [hchildren]
        simp [hcallee]
      · exact .inr (.inl (htypes c hc))
    · rcases List.mem_cons.1 h with rfl | h
      · simp [hcallee] at hb
      · simp [htypes b h] at hb

/-- An export statement that begins with its word or with a decorator. -/
theorem lawful_of_export (hexport : n.construct = .exportStatement) (hnamed : n.named = true)
    (hopens : opensExport text n.span.start = true)
    (hnested : InRow n.span.start n.span.stop n.children)
    (hstart : IsBoundary text n.span.start) (hstop : IsBoundary text n.span.stop) :
    n.Lawful text := by
  have hkind : n.construct ≠ .program ∧ n.construct ≠ .stringLiteral ∧
      n.construct ≠ .identifier ∧ n.construct ≠ .importKeyword := by
    rw [hexport]
    decide
  refine lawful_of_named hnamed hkind (fun _ => hopens) (fun h => ?_) hnested hstart hstop
  rw [hexport] at h
  cases h

/-- The node as the given field, or as none. -/
def withField (field : Option String) (n : SyntaxNode) : SyntaxNode := { n with field := field }

theorem silent_withField {field : Option String} (h : n.Silent) : (n.withField field).Silent := by
  intro d hd
  rcases has_iff.1 hd with rfl | ⟨c, hc, hd⟩
  · exact h n (.self n)
  · exact h d (.inside hc hd)

theorem allLawful_withField {field : Option String} (hfield : field ≠ some "source")
    (h : n.AllLawful text) : (n.withField field).AllLawful text := by
  have hn := h.lawful
  refine allLawful_iff.2 ⟨?_, (allLawful_iff.1 h).2⟩
  exact { hn with
    string_silent := fun hk hnamed => silent_withField (hn.string_silent hk hnamed)
    source_named := fun hf => (hfield hf).elim }

end SyntaxNode

end ModuleMove
