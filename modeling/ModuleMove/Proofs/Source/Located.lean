import ModuleMove.Proofs.Dependents.Index
import ModuleMove.Proofs.Source.Placement

/-!
# LOCATED REFERENCES — where a scan says that the references of a text are

Every edit trusts the places that a scan gives.  They are given in bytes, also where characters
of several bytes stand before them, and the line of a reference counts the line breaks before it.
This is so with any parser of which all trees without errors are lawful.

Main statements:
  * `scan_located` — what is known about the references and the export statements of a file.
-/

namespace ModuleMove

open Scan

/-- A reference is where it says in the text of the file at the path. -/
structure Reference.Located (r : Reference) (path : Path) (text : List Char) : Prop where
  /-- It is one of the file. -/
  owner : r.owner = path
  /-- Its span is that of the specifier, which stands between two equal quotes, and its line counts
      the line breaks before it. -/
  place : ∃ a q b, text = a ++ q :: (r.specifier.toList ++ q :: b) ∧ (q = '\'' ∨ q = '"') ∧
    r.span = ⟨byteLength (a ++ [q]), byteLength (a ++ q :: r.specifier.toList)⟩ ∧
    r.line = 1 + (a ++ [q]).count '\n'
  /-- Its statement holds the specifier and both quotes. -/
  inside : r.statement.contains r.whole = true

/-- A scanned file tells where everything is in the text of the file at the path, which has the
    tree. -/
structure ScannedFile.Located (f : ScannedFile) (path : Path) (text : List Char)
    (t : SyntaxTree) : Prop where
  /-- Each reference is where it says. -/
  references : ∀ r ∈ f.references, r.Located path text
  /-- No two specifiers overlap, not even with their quotes. -/
  specifiers : f.references.Pairwise fun r s => r.whole.overlaps s.whole = false
  /-- No two export statements that name a module overlap. -/
  statements : (f.references.filter (·.kind == .exports)).Pairwise fun r s =>
    r.statement.overlaps s.statement = false
  /-- The export statements that are listed are those at the top level. -/
  listed : ∀ s, s ∈ f.exportStatements ↔
    ∃ n, t.TopLevel n ∧ n.construct = .exportStatement ∧ n.span = s

section

variable {parse : Parser} {path : Path} {source : String} {f : ScannedFile} {t : SyntaxTree}
  {n : SyntaxNode} {r : Reference}

/-- What a node makes is located, as its tree tells rows as they are. -/
theorem SyntaxTree.Lawful.located (ht : t.Lawful source.toList) (hn : t.root.Has n)
    (hall : n.AllLawful source.toList) (hmade : (t.walk path source).made? n = some r) :
    r.Located path source.toList := by
  obtain ⟨string, k, names, hstring, hnamed, -, hr⟩ :=
    Walk.exists_source_of_made? (w := t.walk path source) hall hmade
  have hstands := (Walk.placed_of_made? (w := t.walk path source) hall hmade).1
  obtain ⟨-, a, q, cs, b, htext, hq, hspan, rfl⟩ :=
    Walk.exists_of_reference? (w := t.walk path source) (hall string hstring) hnamed hr
  have hrow := ht.rows string (hn.trans hstring) a _ htext (by rw [hspan])
  have hsize : q.utf8Size = 1 := utf8Size_of_quote hq
  refine ⟨rfl, ⟨a, q, b, by rw [String.toList_ofList]; exact htext, hq, ?_, ?_⟩, hstands.inside⟩
  · simp only [byteLength_append, byteLength_cons, byteLength_nil, hsize, String.toList_ofList]
    congr 1
    omega
  · show (t.startOf string).row + 1 = _
    have hquote : [q].count '\n' = 0 := by rcases hq with rfl | rfl <;> rfl
    rw [hrow, List.count_append, hquote]
    omega

/-- Where two stretches do not overlap, neither do parts of them. -/
theorem Span.not_overlaps_of_contains {s t u v : Span} (h : s.overlaps t = false)
    (hs : s.contains u = true) (ht : t.contains v = true) : u.overlaps v = false := by
  simp only [contains, Bool.and_eq_true, decide_eq_true_eq] at hs ht
  simp only [overlaps, Bool.and_eq_false_iff, decide_eq_false_iff_not] at h ⊢
  omega

theorem Reference.StandsIn.extent_contains {text : List Char} (h : r.StandsIn text) :
    r.extent.contains r.whole = true := by
  unfold Reference.extent
  cases r.kind with
  | imports => exact Span.contains_refl _
  | exports => exact h.inside

theorem located_file_of_scanWith (hparse : parse.Documented)
    (h : scanWith parse path source = .ok f) :
    ∃ t, parse f.language source = some t ∧ f.Located path source.toList t := by
  obtain ⟨t, htree, ht, -, hrefs, hlisted⟩ := exists_tree_of_scanWith hparse h
  have hmade : ∀ r ∈ f.references, ∃ n, t.root.Has n ∧ n.AllLawful source.toList ∧
      (t.walk path source).made? n = some r := fun r hr =>
    SyntaxTree.Lawful.exists_made (w := t.walk path source) ht (hrefs ▸ hr)
  have hstands : ∀ r ∈ f.references, r.StandsIn source.toList := by
    intro r hr
    obtain ⟨n, -, hn, hmade⟩ := hmade r hr
    exact (Walk.placed_of_made? (w := t.walk path source) hn hmade).1
  have hapart : f.references.Pairwise Reference.Apart := by
    rw [hrefs]
    exact (SyntaxTree.Lawful.pairwise_precedes (w := t.walk path source) ht).imp
      Walk.Precedes.apart
  refine ⟨t, htree, fun r hr => ?_, ?_, ?_, hlisted⟩
  · obtain ⟨n, hn, hall, hmade⟩ := hmade r hr
    exact ht.located hn hall hmade
  · refine hapart.imp_of_mem fun {r s} hr hs hrs => ?_
    exact Span.not_overlaps_of_contains hrs (hstands r hr).extent_contains
      (hstands s hs).extent_contains
  · refine (hapart.filter _).imp_of_mem fun {r s} hr hs hrs => ?_
    have hkind : ∀ {t : Reference}, t ∈ f.references.filter (·.kind == .exports) →
        t.extent = t.statement := by
      intro t ht
      have hk : t.kind = .exports := by simpa using (List.mem_filter.1 ht).2
      unfold Reference.extent
      rw [hk]
    unfold Reference.Apart at hrs
    rwa [hkind hr, hkind hs] at hrs

end

/-- **A scan tells where the references and the export statements of a text are.**  A text is
    scanned if its language is supported and it has a tree without errors. -/
theorem scan_located {parse : Parser} (hparse : parse.Documented) (path : Path) (source : String) :
    ((∃ f, scanWith parse path source = .ok f) ↔ ∃ language t, languageOf? path = some language ∧
        parse language source = some t ∧ t.root.hasError = false) ∧
      ∀ f, scanWith parse path source = .ok f →
        ∃ t, parse f.language source = some t ∧ f.Located path source.toList t := by
  refine ⟨⟨?_, ?_⟩, fun f => located_file_of_scanWith hparse⟩
  · rintro ⟨f, h⟩
    obtain ⟨language, t, hlanguage, ht, hgood, -⟩ := scanWith_eq_ok_iff.1 h
    exact ⟨language, t, hlanguage, ht, hgood⟩
  · rintro ⟨language, t, hlanguage, ht, hgood⟩
    exact ⟨_, scanWith_eq_ok_iff.2 ⟨language, t, hlanguage, ht, hgood, rfl⟩⟩

/-- A file with a character of two bytes, an export statement that names a module, and a call on
    another line. -/
def locatedText : String := "'é'; export * from './a';\nrequire(\"./b\");\n"

/-- What is known about the file. -/
def locatedFile : ScannedFile where
  path := ⟨"/c.ts"⟩
  language := .typeScript
  references := [⟨⟨"/c.ts"⟩, "./a", ⟨21, 24⟩, ⟨6, 26⟩, .exports, ["*"], 1⟩,
    ⟨⟨"/c.ts"⟩, "./b", ⟨36, 39⟩, ⟨27, 41⟩, .imports, [], 2⟩]
  declared := []
  exportStatements := [⟨6, 26⟩]

/-- Both references of the file are located. -/
theorem scan_located_behind_two_bytes :
    scanWith Grammar.parse ⟨"/c.ts"⟩ locatedText = .ok locatedFile ∧
      ∃ t, Grammar.parse .typeScript locatedText = some t ∧
        locatedFile.Located ⟨"/c.ts"⟩ locatedText.toList t := by
  have hoption : (scan ⟨"/c.ts"⟩ locatedText).toOption = some locatedFile := by decide +kernel
  have hscan : scanWith Grammar.parse ⟨"/c.ts"⟩ locatedText = .ok locatedFile :=
    eq_ok_of_toOption hoption
  exact ⟨hscan, (scan_located Grammar.documented _ _).2 _ hscan⟩

end ModuleMove
