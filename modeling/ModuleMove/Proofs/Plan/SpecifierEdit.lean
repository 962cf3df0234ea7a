import ModuleMove.Plan.Specifiers
import ModuleMove.Proofs.Edit.Splice
import ModuleMove.Proofs.Specifier
import ModuleMove.Proofs.Text.Pieces

/-!
# SPECIFIER EDITS — what the smallest edit makes of a specifier

Two specifiers are compared segment by segment: a part at the beginning and a part at the end are
shared, and one edit takes the middle of the one to the middle of the other.  Where the middle of
one of them is nothing but an empty segment, that segment is not looked at.

Main statements:
  * `specifierEdit?_eq_some` — where the edit lies, and what it makes of the specifier.
  * `specifierEdit?_eq_none` — no edit leaves a specifier that differs in an empty segment at most.
  * `Specifier.read_of_reworked` — an empty segment more or less does not change how it is read.
-/

namespace ModuleMove

open ModuleMove.Path (componentOf?)

/-! ## §1. Segments with the slashes behind them. -/

/-- Segments, each with a slash behind it. -/
def withSlashes : List String → String
  | [] => ""
  | s :: ss => s ++ "/" ++ withSlashes ss

theorem cutText_withSlashes {ps : List String} (h : ∀ p ∈ ps, '/' ∉ p.toList) (t : String) :
    cutText '/' (withSlashes ps ++ t) = ps ++ cutText '/' t := by
  induction ps with
  | nil => rw [withSlashes, String.empty_append, List.nil_append]
  | cons p ps ih =>
    rw [withSlashes, String.append_assoc, cutText_slash,
      cutText_of_not_mem (h p (List.mem_cons_self ..)),
      ih fun q hq => h q (List.mem_cons_of_mem _ hq)]
    rfl

theorem joinText_append (ps : List String) {qs : List String} (h : qs ≠ []) :
    joinText '/' (ps ++ qs) = withSlashes ps ++ joinText '/' qs := by
  induction ps with
  | nil => rw [withSlashes, String.empty_append, List.nil_append]
  | cons p ps ih =>
    rw [List.cons_append, joinText_cons p (by simp [h]), ih, withSlashes]
    simp only [String.append_assoc]

theorem withSlashes_eq {ps : List String} (h : ps ≠ []) :
    withSlashes ps = joinText '/' ps ++ "/" := by
  induction ps with
  | nil => exact absurd rfl h
  | cons p ps ih =>
    cases ps with
    | nil => rw [withSlashes, withSlashes, joinText_singleton, String.append_empty]
    | cons q ps =>
      rw [withSlashes, ih (by simp), joinText_cons p (by simp)]
      simp only [String.append_assoc]

theorem byteLength_withSlashes (ps : List String) :
    byteLength (withSlashes ps).toList = segmentsLength ps := by
  induction ps with
  | nil => rfl
  | cons p ps ih =>
    unfold segmentsLength at ih ⊢
    rw [withSlashes, String.toList_append, String.toList_append, byteLength_append,
      byteLength_append, ih, List.foldr_cons, utf8ByteSize_eq_byteLength]
    rfl

/-! ## §2. Beginning, middle and end. -/

/-- Two lists of segments with a shared beginning `ps` and a shared end `ss`. -/
structure Parted (old new ps os ns ss : List String) : Prop where
  /-- The segments of the one. -/
  old_eq : old = ps ++ os ++ ss
  /-- The segments of the other. -/
  new_eq : new = ps ++ ns ++ ss
  /-- The shared beginning is as long as it can be. -/
  head_ne : ps = [] → old.head? ≠ new.head?

theorem drop_eq_reverse_take {α : Type} (l : List α) (n : Nat) :
    l.drop (l.length - n) = (l.reverse.take n).reverse := by
  rw [List.take_reverse, List.reverse_reverse]

/-- The parts that a specifier edit looks at. -/
theorem exists_parted {old : List String} (h : old ≠ []) (new : List String) :
    let before := commonLength old new
    let behind := commonLength (old.drop before).reverse (new.drop before).reverse
    ∃ ps os ns ss, Parted old new ps os ns ss ∧ old.take before = ps ∧
      (old.drop before).take ((old.drop before).length - behind) = os ∧
      (new.drop before).take ((new.drop before).length - behind) = ns ∧
      (behind = 0 ↔ ss = []) := by
  intro before behind
  -- what both end with is found from the end
  have hend : (old.drop before).drop ((old.drop before).length - behind)
      = (new.drop before).drop ((new.drop before).length - behind) := by
    rw [drop_eq_reverse_take, drop_eq_reverse_take, take_commonLength]
  refine ⟨old.take before, _, _,
    (old.drop before).drop ((old.drop before).length - behind), ⟨?_, ?_, ?_⟩, rfl, rfl, rfl, ?_⟩
  · rw [List.append_assoc, List.take_append_drop, List.take_append_drop]
  · rw [List.append_assoc, hend, List.take_append_drop, take_commonLength, List.take_append_drop]
  · intro h0
    refine head?_ne_of_commonLength ?_ h
    rcases List.take_eq_nil_iff.1 h0 with h0 | h0
    · exact h0
    · exact absurd h0 h
  · have hle : behind ≤ (old.drop before).reverse.length := commonLength_le_left _ _
    rw [List.length_reverse] at hle
    rw [List.drop_eq_nil_iff]
    omega

/-- What a specifier edit may make of the old segments: the new ones, except that an empty segment
    that is all of the middle of one of the two may be kept or left out. -/
def Reworked (old new made : List String) : Prop :=
  ∃ ps os ns ss ms, Parted old new ps os ns ss ∧ made = ps ++ ms ++ ss ∧
    ms.filter (· ≠ "") = ns.filter (· ≠ "") ∧ (ms = ns ∨ os = [""] ∨ ns = [""])

theorem joinText_eq_empty_iff {ss : List String} :
    joinText '/' ss = "" ↔ ss = [] ∨ ss = [""] := by
  constructor
  · intro h
    match ss with
    | [] => exact .inl rfl
    | [s] =>
      rw [joinText_singleton] at h
      exact .inr (by rw [h])
    | s :: t :: r =>
      rw [joinText_cons s (by simp)] at h
      have := congrArg String.toList h
      simp at this
  · rintro (rfl | rfl) <;> rfl

/-! ## §3. Putting in, taking away, replacing. -/

namespace Parted

variable {old new : String} {ps os ns ss : List String}

theorem slash_not_mem_old (h : Parted (cutText '/' old) (cutText '/' new) ps os ns ss) :
    ∀ p ∈ ps ++ os ++ ss, '/' ∉ p.toList := by
  rw [← h.old_eq]
  exact fun p => not_mem_of_mem_cutText

/-- The new middle comes back from its text. -/
theorem cutText_new (h : Parted (cutText '/' old) (cutText '/' new) ps os ns ss)
    (hn : joinText '/' ns ≠ "") : cutText '/' (joinText '/' ns) = ns := by
  apply cutText_joinText
  · rintro rfl
    exact hn rfl
  · intro p hp
    apply not_mem_of_mem_cutText (s := new)
    rw [h.new_eq]
    simp [hp]

/-- The shared end comes back from its text, also behind the old middle. -/
theorem cutText_end (h : Parted (cutText '/' old) (cutText '/' new) ps os ns ss) (hs : ss ≠ []) :
    cutText '/' (joinText '/' ss) = ss ∧ cutText '/' (joinText '/' (os ++ ss)) = os ++ ss := by
  have hold := h.slash_not_mem_old
  constructor
  · exact cutText_joinText hs fun p hp => hold p (by simp [hp])
  · refine cutText_joinText (by simp [hs]) fun p hp => hold p ?_
    rw [List.append_assoc]
    exact List.mem_append_right _ hp

theorem slash_not_mem_start (h : Parted (cutText '/' old) (cutText '/' new) ps os ns ss) :
    ∀ p ∈ ps, '/' ∉ p.toList :=
  fun p hp => h.slash_not_mem_old p (by simp [hp])

theorem text_eq (h : Parted (cutText '/' old) (cutText '/' new) ps os ns ss) :
    old = joinText '/' (ps ++ os ++ ss) := by
  rw [← h.old_eq, joinText_cutText]

/-- The old text with something behind the shared beginning. -/
theorem text_eq_withSlashes (h : Parted (cutText '/' old) (cutText '/' new) ps os ns ss)
    (hne : os ++ ss ≠ []) : old = withSlashes ps ++ joinText '/' (os ++ ss) := by
  rw [h.text_eq, List.append_assoc, joinText_append ps hne]

/-- Segments are put behind all others. -/
theorem insert_last (h : Parted (cutText '/' old) (cutText '/' new) ps os ns [])
    (ho : os = [] ∨ os = [""]) (hn : joinText '/' ns ≠ "") :
    Reworked (cutText '/' old) (cutText '/' new)
      (cutText '/' (old ++ ("/" ++ joinText '/' ns))) := by
  have hcut : cutText '/' (old ++ ("/" ++ joinText '/' ns)) = ps ++ (os ++ ns) ++ [] := by
    rw [← String.append_assoc, cutText_slash, h.cutText_new hn, h.old_eq]
    simp
  refine ⟨ps, os, ns, [], os ++ ns, h, hcut, ?_, ?_⟩
  · rw [List.filter_append]
    rcases ho with rfl | rfl <;> rfl
  · rcases ho with rfl | rfl
    · exact .inl rfl
    · exact .inr (.inl rfl)

/-- Segments are put in front of others. -/
theorem insert_before (h : Parted (cutText '/' old) (cutText '/' new) ps os ns ss)
    (ho : os = [] ∨ os = [""]) (hn : joinText '/' ns ≠ "") (hs : ss ≠ []) :
    Reworked (cutText '/' old) (cutText '/' new)
      (cutText '/' (withSlashes ps ++ (joinText '/' ns ++ "/") ++ joinText '/' (os ++ ss))) := by
  have hcut : cutText '/' (withSlashes ps ++ (joinText '/' ns ++ "/") ++ joinText '/' (os ++ ss))
      = ps ++ (ns ++ os) ++ ss := by
    rw [String.append_assoc, cutText_withSlashes h.slash_not_mem_start, cutText_slash,
      h.cutText_new hn, (h.cutText_end hs).2]
    simp
  refine ⟨ps, os, ns, ss, ns ++ os, h, hcut, ?_, ?_⟩
  · rw [List.filter_append]
    rcases ho with rfl | rfl <;> exact List.append_nil _
  · rcases ho with rfl | rfl
    · exact .inl (List.append_nil _)
    · exact .inr (.inl rfl)

/-- What is left without the old middle is wanted, if nothing is wanted there. -/
theorem reworked_remove (h : Parted (cutText '/' old) (cutText '/' new) ps os ns ss)
    (hn : ns = [] ∨ ns = [""]) :
    Reworked (cutText '/' old) (cutText '/' new) (ps ++ ss) := by
  refine ⟨ps, os, ns, ss, [], h, by simp, ?_, ?_⟩
  · rcases hn with rfl | rfl <;> rfl
  · rcases hn with rfl | rfl
    · exact .inl rfl
    · exact .inr (.inr rfl)

/-- The last segments are taken away. -/
theorem remove_last (h : Parted (cutText '/' old) (cutText '/' new) ps os ns [])
    (ho : joinText '/' os ≠ "") (hn : ns = [] ∨ ns = [""]) (hp : ps ≠ []) :
    old = joinText '/' ps ++ ("/" ++ joinText '/' os) ∧
      Reworked (cutText '/' old) (cutText '/' new) (cutText '/' (joinText '/' ps)) := by
  have hne : os ++ [] ≠ [] := by
    rw [List.append_nil]
    rintro rfl
    exact ho rfl
  constructor
  · rw [h.text_eq_withSlashes hne, withSlashes_eq hp, List.append_nil, String.append_assoc]
  · rw [cutText_joinText hp h.slash_not_mem_start]
    simpa using h.reworked_remove hn

/-- Segments in front of others are taken away. -/
theorem remove_before (h : Parted (cutText '/' old) (cutText '/' new) ps os ns ss)
    (ho : joinText '/' os ≠ "") (hn : ns = [] ∨ ns = [""]) (hs : ss ≠ []) :
    old = withSlashes ps ++ (joinText '/' os ++ "/") ++ joinText '/' ss ∧
      Reworked (cutText '/' old) (cutText '/' new)
        (cutText '/' (withSlashes ps ++ joinText '/' ss)) := by
  have hne : os ≠ [] := by
    rintro rfl
    exact ho rfl
  constructor
  · rw [h.text_eq_withSlashes (by simp [hs]), joinText_append os hs, withSlashes_eq hne]
    simp only [String.append_assoc]
  · rw [cutText_withSlashes h.slash_not_mem_start, (h.cutText_end hs).1]
    exact h.reworked_remove hn

/-- The old middle is replaced by the new one. -/
theorem replace (h : Parted (cutText '/' old) (cutText '/' new) ps os ns ss)
    (ho : joinText '/' os ≠ "") (hn : joinText '/' ns ≠ "") :
    ∃ b, old = withSlashes ps ++ joinText '/' os ++ b ∧
      Reworked (cutText '/' old) (cutText '/' new)
        (cutText '/' (withSlashes ps ++ joinText '/' ns ++ b)) := by
  have hne : os ≠ [] := by
    rintro rfl
    exact ho rfl
  -- a slash follows only if segments are kept behind
  by_cases hs : ss = []
  · subst hs
    refine ⟨"", ?_, ?_⟩
    · rw [String.append_empty, h.text_eq_withSlashes (by simp [hne]), List.append_nil]
    · rw [String.append_empty, cutText_withSlashes h.slash_not_mem_start, h.cutText_new hn]
      exact ⟨ps, os, ns, [], ns, h, by simp, rfl, .inl rfl⟩
  · refine ⟨"/" ++ joinText '/' ss, ?_, ?_⟩
    · rw [h.text_eq_withSlashes (by simp [hs]), joinText_append os hs, withSlashes_eq hne]
      simp only [String.append_assoc]
    · rw [String.append_assoc, cutText_withSlashes h.slash_not_mem_start, ← String.append_assoc,
        cutText_slash, h.cutText_new hn, (h.cutText_end hs).1]
      exact ⟨ps, os, ns, ss, ns, h, by simp, rfl, .inl rfl⟩

end Parted

/-! ## §4. The edit. -/

section

variable {path : Path} {r : Reference} {wanted : String}

/-- **No edit leaves a specifier as it should be**, apart from an empty segment. -/
theorem specifierEdit?_eq_none (h : specifierEdit? path r wanted = none) :
    r.specifier = wanted ∨
      Reworked (cutText '/' r.specifier) (cutText '/' wanted) (cutText '/' r.specifier) := by
  unfold specifierEdit? at h
  split at h
  · rename_i heq
    exact .inl (by simpa using heq)
  · right
    obtain ⟨ps, os, ns, ss, hp, hps, hos, hns, hss⟩ :=
      exists_parted (cutText_ne_nil '/' r.specifier) (cutText '/' wanted)
    simp only [hos, hns] at h
    split at h
    · rename_i ho hn
      have ho := joinText_eq_empty_iff.1 (String.isEmpty_iff.1 ho)
      have hn := joinText_eq_empty_iff.1 (String.isEmpty_iff.1 hn)
      -- on both sides there is no segment or an empty one
      refine ⟨ps, os, ns, ss, os, hp, hp.old_eq, ?_, ?_⟩
      · rcases ho with rfl | rfl <;> rcases hn with rfl | rfl <;> rfl
      · rcases ho with rfl | rfl
        · rcases hn with rfl | rfl
          · exact .inl rfl
          · exact .inr (.inr rfl)
        · exact .inr (.inl rfl)
    · split at h <;> cases h
    · split at h <;> cases h
    · cases h

/-- An edit takes `e.expected` out of a specifier behind `a` and before `b`, and what it makes of
    the specifier is what is wanted. -/
def EditsTo (r : Reference) (wanted : String) (e : Edit) (a b : String) : Prop :=
  r.specifier = a ++ e.expected ++ b ∧ e.offset = r.span.start + byteLength a.toList ∧
    Reworked (cutText '/' r.specifier) (cutText '/' wanted) (cutText '/' (a ++ e.written ++ b))

theorem substantial_insert (path : Path) (n : Nat) (t : String) :
    Edit.Substantial ⟨path, n, .insert t⟩ := by
  intro hi
  cases hi

theorem substantial_remove {t : String} (path : Path) (n : Nat) (h : t ≠ "") :
    Edit.Substantial ⟨path, n, .remove t⟩ := fun _ => h

namespace Parted

variable {ps os ns ss : List String}

/-- Segments are put in behind all others, or in front of those that are kept behind. -/
theorem editsTo_insert (path : Path)
    (h : Parted (cutText '/' r.specifier) (cutText '/' wanted) ps os ns ss)
    (ho : os = [] ∨ os = [""]) (hn : joinText '/' ns ≠ "")
    (hstop : r.span.stop = r.span.start + byteLength r.specifier.toList) :
    (ss = [] → EditsTo r wanted ⟨path, r.span.stop, .insert ("/" ++ joinText '/' ns)⟩
      r.specifier "") ∧
    (ss ≠ [] → EditsTo r wanted
      ⟨path, r.span.start + segmentsLength ps, .insert (joinText '/' ns ++ "/")⟩
      (withSlashes ps) (joinText '/' (os ++ ss))) := by
  constructor
  · rintro rfl
    refine ⟨?_, hstop, ?_⟩
    · simp only [Edit.expected, String.append_empty]
    · rw [String.append_empty]
      exact h.insert_last ho hn
  · intro hs
    refine ⟨?_, ?_, h.insert_before ho hn hs⟩
    · rw [h.text_eq_withSlashes (by simp [hs])]
      simp only [Edit.expected, String.append_empty]
    · rw [byteLength_withSlashes]

/-- The last segments are taken away with the slash before them, and others with the slash behind
    them. -/
theorem editsTo_remove (path : Path)
    (h : Parted (cutText '/' r.specifier) (cutText '/' wanted) ps os ns ss)
    (ho : joinText '/' os ≠ "") (hn : ns = [] ∨ ns = [""]) (hw : wanted ≠ "") :
    (ss = [] → EditsTo r wanted
      ⟨path, r.span.start + segmentsLength ps - 1, .remove ("/" ++ joinText '/' os)⟩
      (joinText '/' ps) "") ∧
    (ss ≠ [] → EditsTo r wanted
      ⟨path, r.span.start + segmentsLength ps, .remove (joinText '/' os ++ "/")⟩
      (withSlashes ps) (joinText '/' ss)) := by
  constructor
  · rintro rfl
    -- something is left in front, because something is wanted
    have hpne : ps ≠ [] := by
      rintro rfl
      apply hw
      rw [← joinText_cutText '/' wanted, h.new_eq]
      rcases hn with rfl | rfl <;> rfl
    obtain ⟨htext, hmade⟩ := h.remove_last ho hn hpne
    have hlen : segmentsLength ps = byteLength (joinText '/' ps).toList + 1 := by
      rw [← byteLength_withSlashes, withSlashes_eq hpne, String.toList_append, byteLength_append]
      rfl
    refine ⟨?_, ?_, ?_⟩
    · rw [String.append_empty]
      exact htext
    · show r.span.start + segmentsLength ps - 1 = _
      omega
    · rw [String.append_empty]
      simp only [Edit.written, String.append_empty]
      exact hmade
  · intro hs
    obtain ⟨htext, hmade⟩ := h.remove_before ho hn hs
    refine ⟨htext, ?_, ?_⟩
    · rw [byteLength_withSlashes]
    · simp only [Edit.written, String.append_empty]
      exact hmade

end Parted

/-- **A specifier edit lies in the specifier and makes of it what is wanted**, apart from an empty
    segment. -/
theorem specifierEdit?_eq_some {e : Edit} (h : specifierEdit? path r wanted = some e)
    (hw : wanted ≠ "") (hstop : r.span.stop = r.span.start + byteLength r.specifier.toList) :
    e.target = path ∧ e.Substantial ∧ ∃ a b, EditsTo r wanted e a b := by
  unfold specifierEdit? at h
  split at h
  · cases h
  obtain ⟨ps, os, ns, ss, hp, hps, hos, hns, hss⟩ :=
    exists_parted (cutText_ne_nil '/' r.specifier) (cutText '/' wanted)
  simp only [hos, hns, hps] at h
  split at h
  · cases h
  · -- segments are put in
    rename_i ho hn
    have ho := joinText_eq_empty_iff.1 (String.isEmpty_iff.1 ho)
    have hedits := hp.editsTo_insert path ho (by simpa using hn) hstop
    split at h
    · rename_i hb
      cases h
      exact ⟨rfl, substantial_insert _ _ _, _, _, hedits.1 (hss.1 (by simpa using hb))⟩
    · rename_i hb
      cases h
      exact ⟨rfl, substantial_insert _ _ _, _, _, hedits.2 fun h0 => hb (by simpa using hss.2 h0)⟩
  · -- segments are taken away
    rename_i ho hn
    have hn := joinText_eq_empty_iff.1 (String.isEmpty_iff.1 hn)
    have hedits := hp.editsTo_remove path (by simpa using ho) hn hw
    split at h
    · rename_i hb
      cases h
      exact ⟨rfl, substantial_remove _ _ (by simp), _, _, hedits.1 (hss.1 (by simpa using hb))⟩
    · rename_i hb
      cases h
      exact ⟨rfl, substantial_remove _ _ (by simp), _, _,
        hedits.2 fun h0 => hb (by simpa using hss.2 h0)⟩
  · -- segments are replaced
    rename_i ho hn
    have ho : joinText '/' os ≠ "" := by simpa using ho
    obtain ⟨b, htext, hmade⟩ := hp.replace ho (by simpa using hn)
    cases h
    refine ⟨rfl, fun _ => ho, withSlashes ps, b, htext, ?_, hmade⟩
    rw [byteLength_withSlashes]

end

/-! ## §5. How what is made is read. -/

namespace Specifier

/-- A specifier that is neither empty nor a slash, and does not begin with two slashes. -/
def Proper (s : String) : Prop := s ≠ "" ∧ s ≠ "/" ∧ ¬ Doubled s

theorem isAnchored_iff_cutText {s : String} :
    isAnchored s = true ↔ ∃ p ps, cutText '/' s = "" :: p :: ps := by
  rw [isAnchored_iff]
  constructor
  · rintro ⟨t, rfl⟩
    have hcut : cutText '/' ("/" ++ t) = "" :: cutText '/' t := cutText_slash "" t
    obtain ⟨p, ps, hc⟩ := List.exists_cons_of_ne_nil (cutText_ne_nil '/' t)
    exact ⟨p, ps, by rw [hcut, hc]⟩
  · rintro ⟨p, ps, h⟩
    refine ⟨joinText '/' (p :: ps), ?_⟩
    rw [← joinText_cutText '/' s, h, joinText_cons "" (by simp)]
    rfl

/-- An anchored specifier that is proper has a second piece. -/
theorem proper_iff_cutText {s : String} :
    Proper s ↔ cutText '/' s ≠ [""] ∧ cutText '/' s ≠ ["", ""] ∧ ¬ Doubled s := by
  have hempty : s = "" ↔ cutText '/' s = [""] := by
    constructor
    · rintro rfl
      rfl
    · intro h
      rw [← joinText_cutText '/' s, h]
      rfl
  have hslash : s = "/" ↔ cutText '/' s = ["", ""] := by
    constructor
    · rintro rfl
      rfl
    · intro h
      rw [← joinText_cutText '/' s, h]
      rfl
  unfold Proper
  rw [Ne, Ne, hempty, hslash]

theorem Proper.second {s : String} {ps : List String} (h : Proper s)
    (hcut : cutText '/' s = "" :: ps) : ∃ q qs, ps = q :: qs ∧ q ≠ "" := by
  obtain ⟨h1, h2, h3⟩ := proper_iff_cutText.1 h
  rw [hcut] at h1 h2
  cases ps with
  | nil => exact absurd rfl h1
  | cons q qs =>
    refine ⟨q, qs, rfl, ?_⟩
    rintro rfl
    cases qs with
    | nil => exact h2 rfl
    | cons p qs => exact h3 (doubled_iff.2 ⟨p, qs, hcut⟩)

theorem filterMap_filter_ne_empty (ss : List String) :
    (ss.filter (· ≠ "")).filterMap componentOf? = ss.filterMap componentOf? := by
  induction ss with
  | nil => rfl
  | cons s ss ih =>
    by_cases hs : s = ""
    · subst hs
      exact ih
    · rw [List.filter_cons_of_pos (by simpa using hs), List.filterMap_cons, List.filterMap_cons, ih]

/-- **What is made of a specifier is read like what is wanted.** -/
theorem read_of_reworked {old new made : String}
    (h : Reworked (cutText '/' old) (cutText '/' new) (cutText '/' made)) (ho : Proper old)
    (hn : Proper new) (hstyle : isAnchored new = isAnchored old) :
    isAnchored made = isAnchored new ∧ ¬ Doubled made ∧ Path.inner made = Path.inner new := by
  obtain ⟨ps, os, ns, ss, ms, hp, hmade, hfilter, hor⟩ := h
  have hinner : Path.inner made = Path.inner new := by
    unfold Path.inner
    rw [hmade, hp.new_eq]
    simp only [List.filterMap_append]
    rw [← filterMap_filter_ne_empty ms, hfilter, filterMap_filter_ne_empty]
  by_cases hms : ms = ns
  · -- it is what is wanted
    have heq : made = new := by
      rw [← joinText_cutText '/' made, hmade, hms, ← hp.new_eq, joinText_cutText]
    subst heq
    exact ⟨rfl, hn.2.2, rfl⟩
  have hor : os = [""] ∨ ns = [""] := hor.resolve_left hms
  have hold := hp.old_eq
  have hnew := hp.new_eq
  cases ps with
  | nil =>
    -- both would be anchored, and would share the empty piece at the beginning
    exfalso
    have hboth : ∀ (s t : String) (r : List String), Proper s → isAnchored t = isAnchored s →
        cutText '/' s = "" :: r → (cutText '/' t).head? = (cutText '/' s).head? := by
      intro s t r hs hst hcut
      obtain ⟨q, qs, rfl, -⟩ := hs.second hcut
      rw [isAnchored_iff_cutText.2 ⟨q, qs, hcut⟩] at hst
      obtain ⟨p, ps, ht⟩ := isAnchored_iff_cutText.1 hst
      rw [hcut, ht]
      rfl
    rcases hor with rfl | rfl
    · exact hp.head_ne rfl (hboth old new ss ho hstyle hold).symm
    · exact hp.head_ne rfl (hboth new old ss hn hstyle.symm hnew)
  | cons q qs =>
    by_cases hq : q = ""
    · subst hq
      obtain ⟨a, as, ha, ha0⟩ := ho.second hold
      obtain ⟨b, bs, hb, hb0⟩ := hn.second hnew
      -- both are anchored, and a proper specifier has no empty piece behind its slash
      cases qs with
      | nil =>
        exfalso
        rcases hor with rfl | rfl
        · exact ha0 (List.cons.inj ha).1.symm
        · exact hb0 (List.cons.inj hb).1.symm
      | cons r qs =>
        obtain ⟨rfl, -⟩ := List.cons.inj ha
        have hanchored : isAnchored made = true := isAnchored_iff_cutText.2 ⟨_, _, hmade⟩
        refine ⟨?_, ?_, hinner⟩
        · rw [hanchored, isAnchored_iff_cutText.2 ⟨_, _, hnew⟩]
        · rw [doubled_iff, hmade]
          rintro ⟨p, ps, heq⟩
          exact ha0 (List.cons.inj (List.cons.inj heq).2).1
    · have hplain : isAnchored made = false := not_anchored_of_cutText hmade hq
      refine ⟨?_, ?_, hinner⟩
      · rw [hplain, not_anchored_of_cutText hnew hq]
      · intro hd
        rw [hd.isAnchored] at hplain
        cases hplain

end Specifier

end ModuleMove
