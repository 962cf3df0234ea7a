import ModuleMove.Proofs.Source.Located

/-!
# REFERENCES IN ORDER — how the references of a file are listed

A walk notes the module that a call loads when it comes to the call, and then goes on to what stands
inside the call.  Inside the arguments everything stands behind the first of them.  Only types can
stand before the arguments: what loads a module there is listed behind the call, although it stands
before the call's own specifier.

Main statements:
  * `references_ordered` — the references of a file are listed in order except for those.
  * `typed_call_listed_late` — a call with such a type.
-/

namespace ModuleMove

open Scan

section

variable {text : List Char} {t : SyntaxTree} {w : Walk} {r s : Reference}

/-- What is made in the types of a call stands before the module that the call loads. -/
theorem Walk.InTypeArguments.start_lt (ht : t.Lawful w.text) (h : w.InTypeArguments t.root s r) :
    s.span.start < r.span.start := by
  obtain ⟨call, types, d, hroot, hcall, hmade, htypes, hfield, hd, hmade'⟩ := h
  have hall : call.AllLawful w.text := by
    rcases SyntaxNode.has_iff.1 hroot with rfl | ⟨c, hc, hhas⟩
    · rw [ht.program] at hcall
      cases hcall
    · exact (ht.nodes c hc).of_has hhas
  have hvisit : w.visitCall call = some r := by
    unfold made? at hmade
    rwa [hcall] at hmade
  obtain ⟨source, hsource, hr⟩ := Option.bind_eq_some_iff.1 hvisit
  obtain ⟨-, before, a, behind, xs, ys, -, -, hchildren, ha, hinside, -, hnamed⟩ :=
    exists_of_callSource? hsource
  have hmem : a ∈ call.children := by simp [hchildren]
  have hin : source ∈ a.children := by simp [hinside]
  have hsourceLaw := ((hall.child hmem).child hin).lawful
  -- the types stand before the arguments, in which the name of the module stands
  have hle : types.span.stop ≤ a.span.start := by
    have hrow := hall.lawful.nested.pairwise
    rw [hchildren] at hrow htypes
    obtain ⟨-, -, hpairs⟩ := List.pairwise_append.1 hrow
    rw [List.mem_append, List.mem_cons] at htypes
    rcases htypes with hmem | rfl | hmem
    · exact hpairs types hmem a List.mem_cons_self
    · simp [ha] at hfield
    · exact (hall.lawful.behind_arguments hcall before a behind hchildren ha types hmem
        hfield).elim
  obtain ⟨hstands, hkind, -, hwhole⟩ := standsIn_of_reference? (k := .imports) hsourceLaw hnamed
    (SyntaxNode.Has.contains (.inside hmem (.of_mem hin)) hall) nofun hr
  have hplaced := placed_of_made? ((hall.child htypes).of_has hd) hmade'
  have hwithin := hd.within (hall.child htypes)
  have hsource := (hall.child hmem).lawful.nested.bounds hin
  have hs := hplaced.1.within
  have hspan := hplaced.1.start_le_stop
  have hstart : source.span.start < r.span.start := by
    have hpos := hstands.start_pos
    rw [← hwhole]
    show r.span.start - 1 < r.span.start
    omega
  omega

/-- Specifiers are in order exactly if the second is not made in the types of the first. -/
theorem Walk.Precedes.start_lt_iff (ht : t.Lawful w.text) (h : w.Precedes t.root r s)
    (hr : r.StandsIn w.text) (hs : s.StandsIn w.text) :
    r.span.start < s.span.start ↔ ¬ w.InTypeArguments t.root s r := by
  constructor
  · intro hlt hin
    have hgt := hin.start_lt ht
    omega
  · intro hnot
    have hle : r.extent.stop ≤ s.extent.start := h.resolve_right fun h => hnot h.2
    have hwithin := hr.within
    have hwithin' := hs.within
    have hspan := hr.start_le_stop
    omega

end

/-- **References are listed in the order of the text, except for those in the types of a call.**  Of
    two references, the one that is listed first has the smaller start exactly if the other is not
    made in the types of the call that makes it; in a tree without types all starts increase. -/
theorem references_ordered {parse : Parser} (hparse : parse.Documented) {path : Path}
    {source : String} {f : ScannedFile} (h : scanWith parse path source = .ok f) :
    ∃ t, parse f.language source = some t ∧
      f.references.Pairwise (fun r s =>
        r.span.start < s.span.start ↔ ¬ (t.walk path source).InTypeArguments t.root s r) ∧
      ((∀ n, t.root.Has n → n.field ≠ some "type_arguments") →
        f.references.Pairwise fun r s => r.span.start < s.span.start) := by
  obtain ⟨t, htree, ht, -, hrefs, -⟩ := exists_tree_of_scanWith hparse h
  have hpairs : f.references.Pairwise (fun r s =>
      r.span.start < s.span.start ↔ ¬ (t.walk path source).InTypeArguments t.root s r) := by
    rw [hrefs]
    refine (SyntaxTree.Lawful.pairwise_precedes (w := t.walk path source) ht).imp_of_mem
      fun {r s} hr hs hrs => ?_
    have hstands : ∀ {r}, r ∈ (t.walk path source).referencesOf false t.root →
        r.StandsIn source.toList := by
      intro r hr
      obtain ⟨n, -, hn, hmade⟩ := SyntaxTree.Lawful.exists_made (w := t.walk path source) ht hr
      exact (Walk.placed_of_made? (w := t.walk path source) hn hmade).1
    exact hrs.start_lt_iff ht (hstands hr) (hstands hs)
  refine ⟨t, htree, hpairs, fun huntyped => hpairs.imp fun {r s} hrs => hrs.2 ?_⟩
  rintro ⟨call, types, d, hroot, -, -, htypes, hfield, -, -⟩
  exact huntyped types (hroot.trans (.of_mem htypes)) hfield

/-- A call inside a call that loads a module, in an exported declaration behind an export. -/
def nestedCallsText : String :=
  "export * from './a';\nexport const x = import('./b', require('./c'));\n"

/-- What is known about the file. -/
def nestedCallsFile : ScannedFile where
  path := ⟨"/a.ts"⟩
  language := .typeScript
  references := [⟨⟨"/a.ts"⟩, "./a", ⟨15, 18⟩, ⟨0, 20⟩, .exports, ["*"], 1⟩,
    ⟨⟨"/a.ts"⟩, "./b", ⟨46, 49⟩, ⟨38, 67⟩, .imports, [], 2⟩,
    ⟨⟨"/a.ts"⟩, "./c", ⟨61, 64⟩, ⟨52, 66⟩, .imports, [], 2⟩]
  declared := ["x"]
  exportStatements := [⟨0, 20⟩, ⟨21, 68⟩]

/-- The three references are listed as they stand: none is made in types of another. -/
theorem nested_calls_ordered :
    scanWith Grammar.parse ⟨"/a.ts"⟩ nestedCallsText = .ok nestedCallsFile ∧
      ∃ t, Grammar.parse .typeScript nestedCallsText = some t ∧
        nestedCallsFile.references.Pairwise (fun r s => r.span.start < s.span.start ↔
          ¬ (t.walk ⟨"/a.ts"⟩ nestedCallsText).InTypeArguments t.root s r) ∧
        ((∀ n, t.root.Has n → n.field ≠ some "type_arguments") →
          nestedCallsFile.references.Pairwise fun r s => r.span.start < s.span.start) := by
  have hoption : (scan ⟨"/a.ts"⟩ nestedCallsText).toOption = some nestedCallsFile := by
    decide +kernel
  have hscan : scanWith Grammar.parse ⟨"/a.ts"⟩ nestedCallsText = .ok nestedCallsFile :=
    eq_ok_of_toOption hoption
  have hordered := references_ordered Grammar.documented hscan
  exact ⟨hscan, hordered⟩

/-- A call that loads a module, with a type that loads another one in its type arguments. -/
def typedCallText : String := "require<keyof typeof import('./a')>('./b');\n"

/-- The module that the call loads is listed before the one that the type loads, although it stands
    behind it. -/
theorem typed_call_listed_late : ∃ f, scan ⟨"/a.ts"⟩ typedCallText = .ok f ∧
    ¬ f.references.Pairwise fun r s => r.span.start < s.span.start := by
  have hoption : ((scan ⟨"/a.ts"⟩ typedCallText).toOption.map fun f =>
      f.references.map (·.span.start)) = some [37, 29] := by
    decide +kernel
  obtain ⟨f, hf, hstarts⟩ := Option.map_eq_some_iff.1 hoption
  refine ⟨f, eq_ok_of_toOption hf, fun hpairs => ?_⟩
  have hsorted : (f.references.map (·.span.start)).Pairwise (· < ·) := List.pairwise_map.2 hpairs
  rw [hstarts] at hsorted
  exact absurd hsorted (by decide)

end ModuleMove
