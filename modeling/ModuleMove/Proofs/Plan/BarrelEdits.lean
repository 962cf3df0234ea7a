import ModuleMove.Proofs.Plan.Rewritten

/-!
# EDITS OF BARRELS — what is taken out of one barrel and put into another

From the barrel of the directory that the unit leaves, each export is taken out that leads into the
unit.  Into the barrel of the directory that it enters, a line is put if no export leads to the unit
yet.  If the two directories have one barrel, or a barrel has not been scanned, nothing is done.

Main statements:
  * `Preparation.Sound.onRemoved_of_travels` — an export that leads into the unit is taken out.
  * `Preparation.exportsUnit_iff` — whether a barrel exports the unit is told by what it says.
  * `Preparation.exists_line` — what is put into a barrel.
-/

namespace ModuleMove

open ModuleMove.Path
open Preparation (lineEnd)

/-- A relative specifier is one of a file of the project. -/
theorem isRelativeSpecifier_relative (dir target : Path) :
    isRelativeSpecifier (Specifier.relative dir target) = true := by
  have hdots : ∀ (s : String) (ss : List String), s = "." ∨ s = ".." →
      isRelativeSpecifier (joinText '/' (s :: ss)) = true := by
    intro s ss hs
    have hjoin : ∃ t, joinText '/' (s :: ss) = s ++ t := by
      by_cases hss : ss = []
      · exact ⟨"", by rw [hss, joinText_singleton, String.append_empty]⟩
      · exact ⟨_, by rw [joinText_cons s hss, String.append_assoc]⟩
    obtain ⟨t, ht⟩ := hjoin
    unfold isRelativeSpecifier
    rw [ht, String.toList_append]
    rcases hs with rfl | rfl <;> rfl
  unfold Specifier.relative
  cases hups : (dir.components.drop (commonLength dir.components target.components)).map
      (fun _ => "..") with
  | nil =>
    simp only [hups]
    exact hdots "." _ (.inl rfl)
  | cons s ss =>
    have hs : s ∈ (dir.components.drop (commonLength dir.components target.components)).map
        (fun _ => "..") := by
      rw [hups]
      exact List.mem_cons_self ..
    obtain ⟨_, -, rfl⟩ := List.mem_map.1 hs
    simp only [hups]
    exact hdots ".." _ (.inr rfl)

namespace Preparation

/-! ## §1. What the edits of the barrels take away and put in. -/

section

variable {x : Preparation} {f : ScannedFile} {s : String} {r : Reference} {a b path : Path}

/-- The edits of the barrels can all be made. -/
theorem Sound.makes_barrelEdits (hx : x.Sound) : x.Makes x.barrelEdits.edits :=
  ⟨fun _ he => hx.placed (List.mem_append_right _ he), hx.pairwise_barrelEdits⟩

/-- A text can be parted behind the end of a line where it can be parted before it. -/
theorem exists_parts_lineEnd {cs : List Char} {stop : Nat}
    (h : (partAtByte? stop cs).isSome = true) :
    ∃ a b, cs = a ++ b ∧ byteLength a = lineEnd cs stop := by
  obtain ⟨⟨a, b⟩, hab⟩ := Option.isSome_iff_exists.1 h
  obtain ⟨hcs, ha⟩ := partAtByte?_eq_some hab
  unfold lineEnd
  split
  · rename_i rest hrest
    obtain ⟨c, rfl, hc⟩ := fromByte?_eq_some hrest
    refine ⟨c ++ ['\r', '\n'], rest, by simp, ?_⟩
    rw [byteLength_append, hc]
    rfl
  · rename_i rest hrest
    obtain ⟨c, rfl, hc⟩ := fromByte?_eq_some hrest
    refine ⟨c ++ ['\n'], rest, by simp, ?_⟩
    rw [byteLength_append, hc]
    rfl
  · exact ⟨a, b, hcs, ha⟩

/-- What stands between two places where a text can be parted. -/
theorem exists_betweenBytes? {cs a b a' b' : List Char} (h : cs = a ++ b) (h' : cs = a' ++ b')
    (hle : byteLength a ≤ byteLength a') :
    ∃ l, betweenBytes? cs (byteLength a) (byteLength a') = some l := by
  obtain ⟨l, rfl, rfl⟩ := append_eq_append_of_byteLength_le (h.symm.trans h') hle
  refine ⟨l, ?_⟩
  have hlen : byteLength (a ++ l) - byteLength a = byteLength l := by
    rw [byteLength_append, Nat.add_sub_cancel_left]
  unfold betweenBytes? fromByte?
  simp only [Option.bind_eq_bind]
  rw [h, partAtByte?_append, Option.map_some, Option.bind_some, if_neg (by omega), hlen,
    partAtByte?_append]
  rfl

/-- The statement of an export can be taken out of the text of its file. -/
theorem Shows.exists_statement (hs : x.Shows f s) (hr : r ∈ f.references)
    (hk : r.kind = .exports) : ∃ l,
      betweenBytes? s.toList r.statement.start (lineEnd s.toList r.statement.stop) = some l := by
  have hin := hs.standsIn hr
  have hcovers := hin.covers hk
  unfold coversExport at hcovers
  rw [Bool.and_eq_true] at hcovers
  obtain ⟨hopens, hstop⟩ := hcovers
  obtain ⟨a', b', h', hlen'⟩ := exists_parts_lineEnd hstop
  obtain ⟨a, b, h, hlen⟩ : ∃ a b, s.toList = a ++ b ∧ byteLength a = r.statement.start := by
    unfold opensExport at hopens
    split at hopens
    · rename_i a c b hp
      obtain ⟨hcs, ha⟩ := partAtByte?_eq_some hp
      exact ⟨a, c :: b, hcs, ha⟩
    · cases hopens
  have hext : r.extent = r.statement := by
    unfold Reference.extent
    rw [hk]
  have hwithin := hin.within
  have hss := hin.start_le_stop
  have hle := (lineEnd_spec s.toList r.statement.stop).1
  rw [hext] at hwithin
  have := exists_betweenBytes? h h' (by omega)
  rwa [hlen, hlen'] at this

/-- A scanned file can be read as a barrel, under any spelling of its path. -/
theorem Sound.barrelAt_of_shows (hx : x.Sound) (hs : x.Shows f s) (hsame : f.path.same path = true)
    (hfile : x.disk.hasFile path = true) : x.barrelAt path
      = .ok ⟨path, s.toList, f.exports.filter (·.isRelative),
        largest? ((f.exportStatements ++ f.exports.map (·.statement)).map (·.stop))⟩ := by
  have hfound : x.index.file? path = some f := by
    have hsome : (x.index.file? path).isSome = true := by
      unfold Index.file?
      rw [List.find?_isSome]
      exact ⟨f, hs.mem, hsame⟩
    obtain ⟨g, hg⟩ := Option.isSome_iff_exists.1 hsome
    obtain ⟨hmem, hgp⟩ := file?_eq_some hg
    rw [hg, Path.eq_of_same ScannedFile.path hx.index.distinct hmem hs.mem
      (same_trans hgp (same_symm hsame))]
  have hread : x.disk.readText path = .ok s := by
    obtain ⟨pl, hpl⟩ := Disk.readText_eq_ok.1 hs.text
    obtain ⟨ql, c, hql⟩ := Disk.hasFile_iff.1 hfile
    refine Disk.readText_eq_ok.2 ⟨pl, ?_⟩
    rw [hql, Disk.locate_congr hsame hpl hql]
  unfold barrelAt
  simp only [hfound, hread]

/-- **An export that leads into the unit is taken out** of the barrel of the directory that the unit
    leaves. -/
theorem Sound.onRemoved_of_travels (hx : x.Sound) (htwo : x.TwoBarrels)
    (ha : findBarrel x.disk x.project x.unit.oldParent = some a) (hs : x.Shows f s)
    (hsame : f.path.same a = true) (hr : r ∈ f.references) (hk : r.kind = .exports)
    (hrelative : r.isRelative = true)
    (htravels : x.unit.travels (targetOf x.project x.unit.oldParent r) = true) :
    x.onRemoved f.path r = true := by
  obtain ⟨-, -, -, -, -, hfile⟩ := findBarrel_eq_some ha
  have hbarrel := hx.barrelAt_of_shows hs hsame hfile
  obtain ⟨l, hl⟩ := hs.exists_statement hr hk
  obtain ⟨moved, hmoved⟩ := Option.isSome_iff_exists.1 htravels
  have hexports : r ∈ f.exports.filter (·.isRelative) :=
    List.mem_filter.2 ⟨List.mem_filter.2 ⟨hr, by rw [hk]; rfl⟩, hrelative⟩
  have hmem : ⟨a, r.statement.start, .remove (String.ofList l)⟩ ∈ (x.removals a).edits := by
    unfold removals
    simp only [hbarrel]
    refine List.mem_filterMap.2 ⟨r, hexports, ?_⟩
    unfold removal?
    simp only [hmoved, hl]
    rfl
  have hedit := mem_barrelEdits_iff.2 ⟨htwo, .inl ⟨a, ha, hmem⟩⟩
  unfold onRemoved
  rw [List.any_eq_true]
  refine ⟨_, hedit, ?_⟩
  have hspan : Span.contains ⟨r.statement.start,
      r.statement.start + byteLength (String.ofList l).toList⟩ r.span = true := by
    obtain ⟨u, v, -, hu, hlen⟩ := betweenBytes?_eq_some hl
    have hin := hs.standsIn hr
    have hext : r.extent = r.statement := by
      unfold Reference.extent
      rw [hk]
    have hwithin := hin.within
    have hle := (lineEnd_spec s.toList r.statement.stop).1
    rw [hext] at hwithin
    rw [String.toList_ofList, hlen]
    unfold Span.contains
    simp only [Bool.and_eq_true, decide_eq_true_eq]
    omega
  rw [Bool.and_eq_true, Bool.and_eq_true]
  exact ⟨⟨rfl, same_symm hsame⟩, hspan⟩

/-- Nothing is taken out of the barrel of the directory that the unit enters. -/
theorem Sound.not_onRemoved (hx : x.Sound) (htwo : x.TwoBarrels)
    (hb : findBarrel x.disk x.project x.unit.newParent = some b)
    (hsame : f.path.same b = true) (r : Reference) : x.onRemoved f.path r = false := by
  unfold onRemoved
  rw [List.any_eq_false]
  intro e he
  rcases (mem_barrelEdits_iff.1 he).2 with ⟨a, ha, hrem⟩ | ⟨b', hb', hins⟩
  · obtain ⟨-, -, -, -, -, -, rfl, -⟩ := hx.removal hrem
    have hno : e.target.same f.path = false := by
      rw [Bool.eq_false_iff]
      intro hs
      have := htwo _ b ha hb
      rw [same_trans hs hsame] at this
      cases this
    rw [hno]
    simp
  · obtain ⟨-, -, -, -, hi, -⟩ := hx.insertion hins
    rw [hi]
    simp

/-! ## §2. What exports the unit. -/

/-- Whether a specifier in a barrel of the directory that the unit enters leads to the unit, under
    its new or its old path. -/
def leadsToUnit (x : Preparation) (specifier : String) : Bool :=
  let target := Specifier.resolve specifier x.unit.newParent x.project.root
  sameModule target x.unit.newModule x.project.extensions || (x.unit.relocate target).isSome

/-- Whether a file exports the unit can be told from what its references say. -/
theorem exportsUnit_iff {cs : List Char} {n : Option Nat} :
    x.exportsUnit ⟨path, cs, f.exports.filter (·.isRelative), n⟩ = true ↔
      ∃ w ∈ f.references.map Reference.saying, w.2.1 = .exports ∧
        isRelativeSpecifier w.1 = true ∧ x.leadsToUnit w.1 = true := by
  unfold exportsUnit
  rw [List.any_eq_true]
  constructor
  · rintro ⟨r, hr, hleads⟩
    obtain ⟨hr, hrelative⟩ := List.mem_filter.1 hr
    obtain ⟨hr, hk⟩ := List.mem_filter.1 hr
    exact ⟨r.saying, List.mem_map_of_mem hr, eq_of_beq hk, hrelative, hleads⟩
  · rintro ⟨w, hw, hk, hrelative, hleads⟩
    obtain ⟨r, hr, rfl⟩ := List.mem_map.1 hw
    have hk : (r.kind == .exports) = true := beq_iff_eq.2 hk
    exact ⟨r, List.mem_filter.2 ⟨List.mem_filter.2 ⟨hr, hk⟩, hrelative⟩, hleads⟩

/-- A barrel that exports the unit gets no line. -/
theorem insertion_of_exportsUnit {c : Barrel} (hc : x.barrelAt path = .ok c)
    (h : x.exportsUnit c = true) : (x.insertion path).edits = [] := by
  unfold insertion
  simp only [hc, h, if_true]

/-- A barrel that does not export the unit gets a line. -/
theorem insertion_of_not_exportsUnit {c : Barrel} (hc : x.barrelAt path = .ok c)
    (h : x.exportsUnit c = false) :
    (x.insertion path).edits = [insertionOf c (x.exportLine c)] := by
  unfold insertion
  simp only [hc, h]
  rfl

/-- **What is put into a barrel is the line that exports the unit**, into the barrel of the
    directory that the unit enters. -/
theorem exists_line {e : Edit} (he : e ∈ x.barrelEdits.edits) (hi : e.isInsert = true) :
    ∃ c, x.barrelAt e.target = .ok c ∧ x.TwoBarrels ∧
      findBarrel x.disk x.project x.unit.newParent = some e.target ∧
      x.exportsUnit c = false ∧ e = insertionOf c (x.exportLine c) := by
  obtain ⟨htwo, ⟨a, -, hremoval⟩ | ⟨b, hb, hinsertion⟩⟩ := mem_barrelEdits_iff.1 he
  · obtain ⟨c, -, r, -, hr⟩ := mem_removals hremoval
    obtain ⟨-, -, -, ⟨l, hl⟩, -⟩ := removal?_eq_some hr
    unfold Edit.isInsert at hi
    rw [hl] at hi
    cases hi
  · obtain ⟨c, hc, rfl⟩ := mem_insertion hinsertion
    have htarget : (insertionOf c (x.exportLine c)).target = b := by
      obtain ⟨f, s, -, -, rfl⟩ := barrelAt_eq_ok hc
      unfold insertionOf
      split <;> rfl
    refine ⟨c, htarget ▸ hc, htwo, htarget ▸ hb, ?_, rfl⟩
    rw [Bool.eq_false_iff]
    intro hexports
    rw [insertion_of_exportsUnit hc hexports] at hinsertion
    cases hinsertion

end

end Preparation

end ModuleMove
