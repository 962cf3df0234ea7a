import ModuleMove.Scan
import ModuleMove.Proofs.Source.Walked
import ModuleMove.Proofs.Text.Bytes

/-!
# PLACES OF REFERENCES — what a scanned file says about its text

In a lawful tree, the references that a walk finds are where they say: between two equal quotes,
inside their statements, and clear of each other.  Of an export statement that names a module, all
bytes belong to its reference; of any other reference, the quoted specifier does.

Main statements:
  * `Walk.placed_of_made?` — the reference that a node makes stands in the text, and in the node.
  * `Walk.pairwise_precedes` — references stand one behind the other, but for those in types.
  * `standsIn_of_scan` — each reference of a scanned file stands in its text.
  * `pairwise_apart_of_scan` — what belongs to two references does not overlap.
-/

namespace ModuleMove

open Scan

/-! ## §1. What belongs to a reference. -/

namespace Reference

/-- What a reference says, wherever it stands. -/
def saying (r : Reference) : String × ReferenceKind × List String :=
  (r.specifier, r.kind, r.exported)

/-- The bytes of the specifier and of its quotes. -/
def whole (r : Reference) : Span := ⟨r.span.start - 1, r.span.stop + 1⟩

/-- The bytes that belong to the reference alone. -/
def extent (r : Reference) : Span :=
  match r.kind with
  | .exports => r.statement
  | .imports => r.whole

/-- The reference is where it says in the text. -/
structure StandsIn (text : List Char) (r : Reference) : Prop where
  /-- Its specifier stands between two equal quotes. -/
  quoted : ∃ a q b, text = a ++ q :: (r.specifier.toList ++ q :: b) ∧ (q = '\'' ∨ q = '"') ∧
    byteLength a + 1 = r.span.start
  /-- Its span has the size of the specifier. -/
  stop_eq : r.span.stop = r.span.start + byteLength r.specifier.toList
  /-- Its statement holds the quoted specifier. -/
  inside : r.statement.contains r.whole = true
  /-- The statement of an export begins like one and cuts no character. -/
  covers : r.kind = .exports → coversExport text r.statement = true

/-- What belongs to one reference does not overlap what belongs to the other. -/
def Apart (r s : Reference) : Prop := r.extent.overlaps s.extent = false

theorem Apart.symm {r s : Reference} (h : r.Apart s) : s.Apart r := by
  unfold Apart
  rw [Span.overlaps_comm]
  exact h

theorem StandsIn.start_pos {text : List Char} {r : Reference} (h : r.StandsIn text) :
    0 < r.span.start := by
  obtain ⟨a, q, b, -, -, ha⟩ := h.quoted
  omega

theorem StandsIn.start_le_stop {text : List Char} {r : Reference} (h : r.StandsIn text) :
    r.span.start ≤ r.span.stop := by
  rw [h.stop_eq]
  exact Nat.le_add_right _ _

/-- What belongs to a reference begins before the specifier and stops behind it. -/
theorem StandsIn.within {text : List Char} {r : Reference} (h : r.StandsIn text) :
    r.extent.start < r.span.start ∧ r.span.stop < r.extent.stop := by
  have hpos := h.start_pos
  unfold extent
  cases hk : r.kind with
  | imports => exact ⟨by show r.span.start - 1 < _; omega, Nat.lt_succ_self _⟩
  | exports =>
    have hin := h.inside
    unfold Span.contains at hin
    simp only [Bool.and_eq_true, decide_eq_true_eq] at hin
    have h1 : r.statement.start ≤ r.span.start - 1 := hin.1
    have h2 : r.span.stop + 1 ≤ r.statement.stop := hin.2
    exact ⟨by show r.statement.start < _; omega, by show _ < r.statement.stop; omega⟩

end Reference

theorem utf8Size_of_quote {q : Char} (h : q = '\'' ∨ q = '"') : q.utf8Size = 1 := by
  rcases h with rfl | rfl <;> rfl

/-- What belongs to the reference lies before byte `n` or behind it. -/
def Reference.ClearAt (n : Nat) (r : Reference) : Prop :=
  r.extent.stop ≤ n ∨ n ≤ r.extent.start

/-! ## §2. Nodes in nodes. -/

theorem betweenBytes?_append (a m b : List Char) :
    betweenBytes? (a ++ (m ++ b)) (byteLength a) (byteLength a + byteLength m) = some m := by
  unfold betweenBytes? fromByte?
  rw [partAtByte?_append]
  show (if byteLength a + byteLength m < byteLength a then none
    else (partAtByte? (byteLength a + byteLength m - byteLength a) (m ++ b)).map (·.1)) = some m
  rw [if_neg (by omega), Nat.add_sub_cancel_left, partAtByte?_append]
  rfl

namespace SyntaxNode

variable {text : List Char} {low high : Nat} {n c d : SyntaxNode} {ns : List SyntaxNode}

/-- Every node below stands within. -/
theorem Has.within (h : n.Has d) (hn : n.AllLawful text) :
    n.span.start ≤ d.span.start ∧ d.span.start ≤ d.span.stop ∧ d.span.stop ≤ n.span.stop := by
  induction h with
  | self n =>
    have hle := hn.lawful.nested.le
    exact ⟨Nat.le_refl _, hle, Nat.le_refl _⟩
  | inside hc _ ih =>
    have hin := hn.lawful.nested.bounds hc
    have hd := ih (hn.child hc)
    omega

theorem Has.contains (h : n.Has d) (hn : n.AllLawful text) : n.span.contains d.span = true := by
  have hin := h.within hn
  simp [Span.contains, hin]

theorem AllLawful.of_has (h : n.AllLawful text) (hd : n.Has d) : d.AllLawful text :=
  fun _ he => h _ (hd.trans he)

/-- Of the nodes in a row, one stops before the next begins. -/
theorem InRow.pairwise (h : InRow low high ns) :
    ns.Pairwise fun n m => n.span.stop ≤ m.span.start := by
  induction ns generalizing low with
  | nil => exact .nil
  | cons n ns ih =>
    obtain ⟨-, -, hns⟩ := h
    exact List.pairwise_cons.2 ⟨fun m hm => (hns.bounds hm).1, ih hns⟩

end SyntaxNode

/-! ## §3. What a node makes. -/

namespace Walk

open SyntaxNode

variable {w : Walk} {n source root : SyntaxNode} {r s : Reference} {k : ReferenceKind}
  {names : List String} {top : Bool}

/-- A string makes a reference to what stands between its quotes. -/
theorem reference?_of_quoted {a cs b : List Char} {q : Char}
    (hstring : source.construct = .stringLiteral) (htext : w.text = a ++ q :: (cs ++ q :: b))
    (hq : q = '\'' ∨ q = '"')
    (hspan : source.span = ⟨byteLength a, byteLength a + byteLength cs + 2⟩) :
    w.reference? source n k names =
      some ⟨w.path, String.ofList cs, ⟨byteLength a + 1, byteLength a + byteLength cs + 1⟩,
        n.span, k, names, (w.startOf source).row + 1⟩ := by
  have hbetween : betweenBytes? w.text (byteLength a + 1) (byteLength a + byteLength cs + 1)
      = some cs := by
    have h := betweenBytes?_append (a ++ [q]) cs (q :: b)
    have hsize : q.utf8Size = 1 := utf8Size_of_quote hq
    simp only [byteLength_append, byteLength_cons, byteLength_nil, hsize, Nat.add_zero] at h
    rw [htext, ← h]
    congr 1
    · simp
    · omega
  have hstop : byteLength a + byteLength cs + 2 - 1 = byteLength a + byteLength cs + 1 := by
    omega
  unfold reference?
  rw [if_pos hstring]
  simp only [hspan, hstop, hbetween, Option.map_some]

/-- What names a module, makes a reference to what stands between its quotes. -/
theorem exists_of_reference? (hsource : source.Lawful w.text) (hnamed : source.named = true)
    (h : w.reference? source n k names = some r) : source.construct = .stringLiteral ∧
      ∃ a q cs b, w.text = a ++ q :: (cs ++ q :: b) ∧ (q = '\'' ∨ q = '"') ∧
        source.span = ⟨byteLength a, byteLength a + byteLength cs + 2⟩ ∧
        r = ⟨w.path, String.ofList cs, ⟨byteLength a + 1, byteLength a + byteLength cs + 1⟩,
          n.span, k, names, (w.startOf source).row + 1⟩ := by
  by_cases hstring : source.construct = .stringLiteral
  · obtain ⟨a, q, cs, b, htext, hq, hspan⟩ := hsource.quoted hstring hnamed
    rw [reference?_of_quoted hstring htext hq hspan] at h
    exact ⟨hstring, a, q, cs, b, htext, hq, hspan, (Option.some.inj h).symm⟩
  · unfold reference? at h
    rw [if_neg hstring] at h
    cases h

/-- A named string in a node makes a reference that stands in the text. -/
theorem standsIn_of_reference? (hsource : source.Lawful w.text) (hnamed : source.named = true)
    (hinside : n.span.contains source.span = true)
    (hcovers : k = .exports → coversExport w.text n.span = true)
    (h : w.reference? source n k names = some r) :
    r.StandsIn w.text ∧ r.kind = k ∧ r.statement = n.span ∧ r.whole = source.span := by
  obtain ⟨-, a, q, cs, b, htext, hq, hspan, rfl⟩ := exists_of_reference? hsource hnamed h
  have hwhole : Span.mk (byteLength a + 1 - 1) (byteLength a + byteLength cs + 1 + 1)
      = source.span := by
    rw [hspan]
    rfl
  refine ⟨⟨⟨a, q, b, by simpa using htext, hq, rfl⟩, ?_, ?_, hcovers⟩, rfl, rfl, hwhole⟩
  · show byteLength a + byteLength cs + 1 = byteLength a + 1 + byteLength (String.ofList cs).toList
    rw [String.toList_ofList]
    omega
  · show n.span.contains _ = true
    rw [Reference.whole, hwhole]
    exact hinside

/-- The parts of a call that tell which module it loads. -/
theorem exists_of_callSource? {text : List Char} (h : callSource? text n = some source) :
    ∃ callee before a behind xs ys, n.childByField? "function" = some callee ∧
      (callee.construct = .identifier ∨ callee.construct = .importKeyword) ∧
      n.children = before ++ a :: behind ∧ a.field = some "arguments" ∧
      a.children = xs ++ source :: ys ∧ (∀ x ∈ xs, x.named = false) ∧ source.named = true := by
  unfold callSource? at h
  obtain ⟨callee, hcallee, h⟩ := Option.bind_eq_some_iff.1 h
  split at h
  · rename_i hloads
    obtain ⟨a, ha, h⟩ := Option.bind_eq_some_iff.1 h
    unfold childByField? at ha
    obtain ⟨hfield, before, behind, hchildren, -⟩ := List.find?_eq_some_iff_append.1 ha
    unfold namedChildren at h
    rw [List.head?_filter] at h
    obtain ⟨hnamed, xs, ys, hinside, hxs⟩ := List.find?_eq_some_iff_append.1 h
    refine ⟨callee, before, a, behind, xs, ys, hcallee, ?_, hchildren, by simpa using hfield,
      hinside, by simpa using hxs, hnamed⟩
    unfold loads at hloads
    split at hloads
    · exact .inr ‹_›
    · exact .inl ‹_›
    · cases hloads
  · cases h

theorem has_of_importSource? (h : importSource? n = some source) :
    n.Has source ∧ source.field = some "source" := by
  unfold importSource? at h
  split at h
  · rename_i b hb
    cases h
    exact ⟨.of_mem (mem_of_childByField? hb), field_of_childByField? hb⟩
  · obtain ⟨clause, hclause, h⟩ := Option.bind_eq_some_iff.1 h
    exact ⟨.inside (mem_of_childOfKind? hclause) (.of_mem (mem_of_childByField? h)),
      field_of_childByField? h⟩

theorem has_of_callSource? {text : List Char} (h : callSource? text n = some source) :
    n.Has source ∧ source.named = true := by
  obtain ⟨-, before, a, behind, xs, ys, -, -, hchildren, -, hinside, -, hnamed⟩ :=
    exists_of_callSource? h
  exact ⟨.inside (c := a) (by simp [hchildren]) (.of_mem (by simp [hinside])), hnamed⟩

/-- The string that a node makes its reference from. -/
theorem exists_source_of_made? (hn : n.AllLawful w.text) (h : w.made? n = some r) :
    ∃ source k names, n.Has source ∧ source.named = true ∧
      (k = .exports → n.construct = .exportStatement) ∧
      w.reference? source n k names = some r := by
  unfold made? at h
  split at h
  · obtain ⟨source, hsource, hr⟩ := Option.bind_eq_some_iff.1 h
    obtain ⟨hhas, hfield⟩ := has_of_importSource? hsource
    exact ⟨source, .imports, _, hhas, (hn source hhas).source_named hfield, nofun, hr⟩
  · rename_i hk
    obtain ⟨source, hsource, hr⟩ := Option.bind_eq_some_iff.1 h
    have hhas : n.Has source := .of_mem (mem_of_childByField? hsource)
    have hfield := field_of_childByField? hsource
    exact ⟨source, _, _, hhas, (hn source hhas).source_named hfield, fun _ => hk, hr⟩
  · obtain ⟨source, hsource, hr⟩ := Option.bind_eq_some_iff.1 h
    obtain ⟨hhas, hnamed⟩ := has_of_callSource? hsource
    exact ⟨source, .imports, _, hhas, hnamed, nofun, hr⟩
  · cases h

/-- **The reference that a node makes stands in the text**, and what belongs to it in the node. -/
theorem placed_of_made? (hn : n.AllLawful w.text) (h : w.made? n = some r) :
    r.StandsIn w.text ∧ n.span.start ≤ r.extent.start ∧ r.extent.stop ≤ n.span.stop := by
  obtain ⟨source, k, names, hhas, hnamed, hexport, hr⟩ := exists_source_of_made? hn h
  have hcovers : k = .exports → coversExport w.text n.span = true := by
    intro hk
    unfold coversExport
    rw [hn.lawful.export_opens (hexport hk), isBoundary_iff.1 hn.lawful.stop_boundary]
    rfl
  obtain ⟨hstands, hkind, hstatement, hwhole⟩ :=
    standsIn_of_reference? (hn source hhas) hnamed (hhas.contains hn) hcovers hr
  refine ⟨hstands, ?_⟩
  unfold Reference.extent
  cases r.kind with
  | exports =>
    rw [hstatement]
    exact ⟨Nat.le_refl _, Nat.le_refl _⟩
  | imports =>
    rw [hwhole]
    exact ⟨(hhas.within hn).1, (hhas.within hn).2.2⟩

/-- What belongs to a reference from a node down stands within the node. -/
theorem placed_of_mem (hn : n.AllLawful w.text) (h : r ∈ w.referencesOf top n) :
    r.StandsIn w.text ∧ n.span.start ≤ r.extent.start ∧ r.extent.stop ≤ n.span.stop := by
  obtain ⟨d, hd, hmade⟩ := exists_made_of_mem h
  have hplaced := placed_of_made? (hn.of_has hd) hmade
  have hin := hd.within hn
  exact ⟨hplaced.1, by omega, by omega⟩

/-! ## §4. The order of references. -/

/-- `s` is made in the types of the call that makes `r`. -/
def InTypeArguments (w : Walk) (root : SyntaxNode) (s r : Reference) : Prop :=
  ∃ call t d, root.Has call ∧ call.construct = .callExpression ∧ w.made? call = some r ∧
    t ∈ call.children ∧ t.field = some "type_arguments" ∧ t.Has d ∧ w.made? d = some s

/-- What belongs to `r` stands before what belongs to `s`, or `s` is made in types before `r`. -/
def Precedes (w : Walk) (root : SyntaxNode) (r s : Reference) : Prop :=
  r.extent.stop ≤ s.extent.start ∨ s.extent.stop ≤ r.extent.start ∧ w.InTypeArguments root s r

theorem Precedes.apart (h : w.Precedes root r s) : r.Apart s := by
  unfold Reference.Apart Span.overlaps
  simp only [Bool.and_eq_false_iff, decide_eq_false_iff_not]
  rcases h with h | ⟨h, -⟩
  · right
    omega
  · left
    omega

/-- What is made in the arguments of a call that loads a module stands behind the name of that
    module. -/
theorem source_le_of_arguments {a : SyntaxNode} {xs ys : List SyntaxNode}
    (ha : a.AllLawful w.text) (hkind : a.kind = "arguments" ∨ a.kind = "template_string")
    (hinside : a.children = xs ++ source :: ys) (hxs : ∀ x ∈ xs, x.named = false)
    (hsilent : source.Silent) (hs : s ∈ w.referencesOf top a) :
    source.span.stop ≤ s.extent.start := by
  have hother : a.construct = .other := by
    unfold construct
    rcases hkind with h | h <;> rw [h] <;> rfl
  have hmade : w.made? a = none := by
    unfold made?
    rw [hother]
  rw [referencesOf_eq, hmade, Option.toList_none, List.nil_append] at hs
  split at hs
  · obtain ⟨c, hc, hs⟩ := List.mem_flatMap.1 hs
    have hplaced := (placed_of_mem (ha.child hc) hs).2
    rw [hinside, List.mem_append, List.mem_cons] at hc
    rcases hc with hc | rfl | hc
    · -- before the name there are only pieces of text
      have hleaf := (ha.child (hinside ▸ List.mem_append_left _ hc)).lawful.piece (hxs c hc)
      rw [referencesOf_of_leaf hleaf] at hs
      cases hs
    · rw [referencesOf_of_silent hsilent] at hs
      cases hs
    · have hrow := ha.lawful.nested
      rw [hinside] at hrow
      obtain ⟨mid, -, -, -, hbehind⟩ := inRow_append.1 hrow
      have hstart := (hbehind.bounds hc).1
      omega
  · cases hs

/-- A call comes before what is made inside of it, but for what is made in its types. -/
theorem precedes_of_call (hn : n.AllLawful w.text) (hroot : root.Has n)
    (hcall : n.construct = .callExpression) (hmade : w.made? n = some r) {c : SyntaxNode}
    (hc : c ∈ n.children) (hs : s ∈ w.referencesOf top c) : w.Precedes root r s := by
  have hvisit : w.visitCall n = some r := by
    unfold made? at hmade
    rwa [hcall] at hmade
  obtain ⟨source, hsource, hr⟩ := Option.bind_eq_some_iff.1 hvisit
  obtain ⟨callee, before, a, behind, xs, ys, hcallee, hloads, hchildren, hfield, hinside, hxs,
    hnamed⟩ := exists_of_callSource? hsource
  have ha : a ∈ n.children := by simp [hchildren]
  have hin : source ∈ a.children := by simp [hinside]
  have hlaw : source.Lawful w.text := ((hn.child ha).child hin).lawful
  obtain ⟨hstring, -⟩ := exists_of_reference? hlaw hnamed hr
  have hextent : r.extent = source.span := by
    obtain ⟨-, hkind, -, hwhole⟩ := standsIn_of_reference? (k := .imports) hlaw hnamed
      (Has.contains (.inside ha (.of_mem hin)) hn) nofun hr
    unfold Reference.extent
    rw [hkind]
    exact hwhole
  have hwithin := (hn.child ha).lawful.nested.bounds hin
  have hplaced := (placed_of_mem (hn.child hc) hs).2
  have hrow := hn.lawful.nested.pairwise
  rw [hchildren, List.pairwise_append, List.pairwise_cons] at hrow
  obtain ⟨-, ⟨hbehind, -⟩, hbefore⟩ := hrow
  have hparts : c ∈ before ++ a :: behind := hchildren ▸ hc
  rw [List.mem_append, List.mem_cons] at hparts
  unfold Precedes
  rw [hextent]
  rcases hparts with hmem | rfl | hmem
  · -- before the arguments only types make references
    have hstop := hbefore c hmem a List.mem_cons_self
    rcases hn.lawful.before_arguments hcall before a behind hchildren hfield c hmem with
      hfunction | htypes | hsilent
    · obtain rfl : callee = c := Option.some.inj (hcallee.symm.trans hfunction)
      rw [referencesOf_of_leaf ((hn.child hc).lawful.word hloads)] at hs
      cases hs
    · obtain ⟨d, hd, hmade'⟩ := exists_made_of_mem hs
      exact .inr ⟨by omega, n, c, d, hroot, hcall, hmade, hc, htypes, hd, hmade'⟩
    · rw [referencesOf_of_silent hsilent] at hs
      cases hs
  · exact .inl (source_le_of_arguments (hn.child ha)
      (hn.lawful.arguments_kind hcall c ha hfield) hinside hxs
      (hlaw.string_silent hstring hnamed) hs)
  · have hstart := hbehind c hmem
    exact .inl (by omega)

/-- References of nodes in a row are in order if those of each node are. -/
theorem pairwise_flatMap {low high : Nat} {ns : List SyntaxNode} (hrow : InRow low high ns)
    (hns : ∀ n ∈ ns, n.AllLawful w.text)
    (h : ∀ n ∈ ns, (w.referencesOf top n).Pairwise (w.Precedes root)) :
    (ns.flatMap (w.referencesOf top)).Pairwise (w.Precedes root) := by
  refine List.pairwise_flatMap.2 ⟨h, hrow.pairwise.imp_of_mem fun {n m} hn hm hle r hr s hs => ?_⟩
  have hplaced := (placed_of_mem (hns n hn) hr).2
  have hplaced' := (placed_of_mem (hns m hm) hs).2
  exact .inl (by omega)

/-- **References stand one behind the other**, but for those in the types of a call. -/
theorem pairwise_precedes (n : SyntaxNode) (hn : n.AllLawful w.text) (hroot : root.Has n)
    (top : Bool) : (w.referencesOf top n).Pairwise (w.Precedes root) := by
  induction n using SyntaxNode.induction generalizing top with
  | _ n ih =>
    have hinside : (n.children.flatMap (w.referencesOf (topInside n top))).Pairwise
        (w.Precedes root) := by
      refine pairwise_flatMap hn.lawful.nested (fun c hc => hn.child hc) fun c hc => ?_
      exact ih c hc (hn.child hc) (hroot.trans (.of_mem hc)) _
    rw [referencesOf_eq]
    cases hmade : w.made? n with
    | none =>
      rw [Option.toList_none, List.nil_append]
      split
      · exact hinside
      · exact .nil
    | some r =>
      rw [Option.toList_some, List.singleton_append]
      split
      · rename_i hdown
        -- of the nodes that make a reference, only calls are descended into
        have hcall : n.construct = .callExpression := by
          unfold made? at hmade
          unfold descends at hdown
          split at hmade
          · rename_i hk
            rw [hk] at hdown
            cases hdown
          · rename_i hk
            rw [hk] at hdown
            rw [Option.isNone_iff_eq_none.1 hdown] at hmade
            cases hmade
          · assumption
          · cases hmade
        refine List.pairwise_cons.2 ⟨fun s hs => ?_, hinside⟩
        obtain ⟨c, hc, hs⟩ := List.mem_flatMap.1 hs
        exact precedes_of_call hn hroot hcall hmade hc hs
      · exact List.pairwise_singleton ..

end Walk

/-! ## §5. Scanned files. -/

/-- The walk over the tree of a text. -/
def SyntaxTree.walk (t : SyntaxTree) (path : Path) (source : String) : Walk :=
  ⟨path, source.toList, t.startOf⟩

theorem scanWith_eq_ok_iff {parse : Parser} {path : Path} {source : String} {f : ScannedFile} :
    scanWith parse path source = .ok f ↔ ∃ language t, languageOf? path = some language ∧
      parse language source = some t ∧ t.root.hasError = false ∧
        f = ofTree path language source t := by
  constructor
  · intro h
    unfold scanWith at h
    split at h
    · cases h
    · rename_i language hlanguage
      split at h
      · cases h
      · rename_i t ht
        split at h
        · cases h
        · rename_i hgood
          cases h
          exact ⟨language, t, hlanguage, ht, by simpa using hgood, rfl⟩
  · rintro ⟨language, t, hlanguage, ht, hgood, rfl⟩
    unfold scanWith
    rw [hlanguage]
    dsimp only
    rw [ht]
    dsimp only
    rw [hgood]
    rfl

section

variable {text : List Char} {t : SyntaxTree} {w : Walk}

/-- The references of a whole file are those of the nodes directly inside. -/
theorem SyntaxTree.Lawful.referencesOf_root (ht : t.Lawful text) (w : Walk) :
    w.referencesOf false t.root = t.root.children.flatMap (w.referencesOf true) := by
  have hmade : w.made? t.root = none := by
    unfold Walk.made?
    rw [ht.program]
  have hdown : t.root.descends = true := by
    unfold SyntaxNode.descends
    rw [ht.program]
  have htop : Walk.topInside t.root false = true := by
    unfold Walk.topInside
    rw [ht.program]
  rw [Walk.referencesOf_eq, hmade, hdown, htop]
  rfl

theorem SyntaxTree.Lawful.pairwise_precedes (ht : t.Lawful w.text) :
    (w.referencesOf false t.root).Pairwise (w.Precedes t.root) := by
  rw [ht.referencesOf_root]
  exact Walk.pairwise_flatMap ht.nested ht.nodes fun n hn =>
    Walk.pairwise_precedes n (ht.nodes n hn) (.of_mem hn) true

/-- What makes a reference of a whole file stands in a node directly inside. -/
theorem SyntaxTree.Lawful.exists_made (ht : t.Lawful w.text) {r : Reference}
    (hr : r ∈ w.referencesOf false t.root) :
    ∃ n, t.root.Has n ∧ n.AllLawful w.text ∧ w.made? n = some r := by
  rw [ht.referencesOf_root] at hr
  obtain ⟨c, hc, hr⟩ := List.mem_flatMap.1 hr
  obtain ⟨n, hn, hmade⟩ := Walk.exists_made_of_mem hr
  exact ⟨n, .inside hc hn, (ht.nodes c hc).of_has hn, hmade⟩

/-- A reference from a row of nodes stands before one of them, behind it or in it. -/
theorem SyntaxNode.InRow.parts {low high : Nat} {ns : List SyntaxNode} {n : SyntaxNode}
    {r : Reference} (hrow : InRow low high ns) (hns : ∀ n ∈ ns, n.AllLawful w.text) (hn : n ∈ ns)
    (hr : r ∈ ns.flatMap (w.referencesOf true)) : r.extent.stop ≤ n.span.start ∨
      n.span.stop ≤ r.extent.start ∨ r ∈ w.referencesOf true n := by
  obtain ⟨c, hc, hrc⟩ := List.mem_flatMap.1 hr
  have hplaced := (Walk.placed_of_mem (hns c hc) hrc).2
  obtain ⟨before, behind, rfl⟩ := List.append_of_mem hn
  have hpairs := hrow.pairwise
  rw [List.pairwise_append, List.pairwise_cons] at hpairs
  obtain ⟨-, ⟨hbehind, -⟩, hbefore⟩ := hpairs
  rw [List.mem_append, List.mem_cons] at hc
  rcases hc with hc | rfl | hc
  · have hle := hbefore c hc n List.mem_cons_self
    left
    omega
  · exact .inr (.inr hrc)
  · have hle := hbehind c hc
    right
    left
    omega

/-- A reference stands before a node at the top level, behind it or in it. -/
theorem SyntaxTree.TopLevel.parts (ht : t.Lawful w.text) {n : SyntaxNode} (hn : t.TopLevel n)
    {r : Reference} (hr : r ∈ w.referencesOf false t.root) : n.AllLawful w.text ∧
      (r.extent.stop ≤ n.span.start ∨ n.span.stop ≤ r.extent.start ∨
        r ∈ w.referencesOf true n) := by
  induction hn with
  | direct hn =>
    rw [ht.referencesOf_root] at hr
    exact ⟨ht.nodes _ hn, ht.nested.parts ht.nodes hn hr⟩
  | @exported n c _ hk hsource hc ih =>
    obtain ⟨hn, hparts⟩ := ih
    have hin := hn.lawful.nested.bounds hc
    refine ⟨hn.child hc, ?_⟩
    rcases hparts with h | h | h
    · left
      omega
    · right
      left
      omega
    · -- an export statement that names no module makes no reference itself
      have hmade : w.made? n = none := by
        unfold Walk.made?
        rw [hk, hsource]
        rfl
      have hdown : n.descends = true := by
        unfold SyntaxNode.descends
        rw [hk, hsource]
        rfl
      have htop : Walk.topInside n true = true := by
        unfold Walk.topInside
        rw [hk]
        rfl
      rw [Walk.referencesOf_eq, hmade, hdown, htop] at h
      exact hn.lawful.nested.parts (fun m hm => hn.child hm) hc h

/-- An export statement at the top level stops between two characters, and there no bytes belong
    to a reference on both sides. -/
theorem SyntaxTree.TopLevel.clearAt (ht : t.Lawful w.text) {n : SyntaxNode} (hn : t.TopLevel n)
    {r : Reference} (hr : r ∈ w.referencesOf false t.root) : r.ClearAt n.span.stop := by
  obtain ⟨hlawful, hparts⟩ := hn.parts ht hr
  have hle := hlawful.lawful.nested.le
  rcases hparts with h | h | h
  · left
    omega
  · exact .inr h
  · exact .inl (Walk.placed_of_mem hlawful h).2.2

theorem SyntaxTree.TopLevel.allLawful (ht : t.Lawful text) {n : SyntaxNode} (hn : t.TopLevel n) :
    n.AllLawful text := by
  induction hn with
  | direct hn => exact ht.nodes _ hn
  | exported _ _ _ hc ih => exact ih.child hc

end

section

variable {parse : Parser} {path : Path} {source : String} {f : ScannedFile} {t : SyntaxTree}

/-- A file that has been scanned has a lawful tree, and is what a walk over it finds. -/
theorem exists_tree_of_scanWith (hparse : parse.Documented)
    (h : scanWith parse path source = .ok f) :
    ∃ t, parse f.language source = some t ∧ t.Lawful source.toList ∧ f.path = path ∧
      f.references = (t.walk path source).referencesOf false t.root ∧
      (∀ s, s ∈ f.exportStatements ↔
        ∃ n, t.TopLevel n ∧ n.construct = .exportStatement ∧ n.span = s) := by
  obtain ⟨language, t, -, ht, hgood, rfl⟩ := scanWith_eq_ok_iff.1 h
  have hlawful := hparse.lawful language source t ht hgood
  refine ⟨t, ht, hlawful, rfl, Walk.references_run (t.walk path source) t.root false, fun s => ?_⟩
  show s ∈ ((t.walk path source).run [(t.root, false)] .none).exportStatements ↔ _
  rw [Walk.run_eq, Walk.mem_exportStatements_foldl, List.flatMap_singleton]
  constructor
  · rintro (h | ⟨n, hn, hs⟩)
    · cases h
    · unfold Walk.exportsBy at hs
      split at hs
      · rename_i hk
        exact ⟨n, (SyntaxTree.mem_walked_iff hlawful).1 hn, hk, (List.mem_singleton.1 hs).symm⟩
      · cases hs
  · rintro ⟨n, hn, hk, rfl⟩
    refine .inr ⟨n, (SyntaxTree.mem_walked_iff hlawful).2 hn, ?_⟩
    unfold Walk.exportsBy
    rw [hk]
    exact List.mem_singleton.2 rfl

theorem path_of_scan (h : scanWith parse path source = .ok f) : f.path = path := by
  obtain ⟨language, t, -, -, -, rfl⟩ := scanWith_eq_ok_iff.1 h
  rfl

/-- **Each reference of a scanned file stands in its text.** -/
theorem standsIn_of_scan (h : scan path source = .ok f) :
    ∀ r ∈ f.references, r.StandsIn source.toList := by
  obtain ⟨t, -, ht, -, hrefs, -⟩ := exists_tree_of_scanWith Grammar.documented h
  intro r hr
  obtain ⟨n, -, hn, hmade⟩ := SyntaxTree.Lawful.exists_made (w := t.walk path source) ht
    (hrefs ▸ hr)
  exact (Walk.placed_of_made? hn hmade).1

/-- **What belongs to two references of a scanned file does not overlap.** -/
theorem pairwise_apart_of_scan (h : scan path source = .ok f) :
    f.references.Pairwise Reference.Apart := by
  obtain ⟨t, -, ht, -, hrefs, -⟩ := exists_tree_of_scanWith Grammar.documented h
  rw [hrefs]
  exact (SyntaxTree.Lawful.pairwise_precedes (w := t.walk path source) ht).imp Walk.Precedes.apart

/-- A top-level export statement stops between two characters, and there no bytes belong to a
    reference on both sides. -/
theorem clearAt_of_scan (h : scan path source = .ok f) {s : Span} (hs : s ∈ f.exportStatements) :
    coversExport source.toList s = true ∧ ∀ r ∈ f.references, r.ClearAt s.stop := by
  obtain ⟨t, -, ht, -, hrefs, hlisted⟩ := exists_tree_of_scanWith Grammar.documented h
  obtain ⟨n, hn, hk, rfl⟩ := (hlisted s).1 hs
  have hlawful := (hn.allLawful ht).lawful
  refine ⟨?_, fun r hr => hn.clearAt (w := t.walk path source) ht (hrefs ▸ hr)⟩
  unfold coversExport
  rw [hlawful.export_opens hk, isBoundary_iff.1 hlawful.stop_boundary]
  rfl

/-- A text that has been scanned can be measured in 32 bits. -/
theorem length_of_scan (h : scan path source = .ok f) :
    byteLength source.toList < Parser.lengthLimit := by
  obtain ⟨language, t, -, ht, -, -⟩ := scanWith_eq_ok_iff.1 h
  exact Grammar.length_of_parse ht

end

end ModuleMove
