import ModuleMove.Proofs.Edit.Batch
import ModuleMove.Proofs.Plan.SpecifierEdit

/-!
# EXACT EDITS — the smallest edit of a specifier, made in a file

What the smallest edit makes of a specifier may differ from what is wanted in an empty segment.
Where no segment is empty, except the one in front of a slash at the beginning, nothing is left to
differ in: the edit turns the one text into the other, and it touches nothing around it.

Main statement:
  * `specifierEdit?_exact` — there is an edit exactly where the texts differ, and made in any file
    that has the specifier at its span it puts the wanted one there.
-/

namespace ModuleMove

namespace Specifier

/-! ## §1. Specifiers without empty segments. -/

/-- No segment is empty, except the one in front of a slash at the beginning. -/
structure Full (s : String) : Prop where
  /-- There is a segment with a character. -/
  ne_empty : s ≠ ""
  /-- No segment behind a slash is empty. -/
  not_mem : "" ∉ (cutText '/' s).tail

instance (s : String) : Decidable (Full s) :=
  decidable_of_iff (s ≠ "" ∧ "" ∉ (cutText '/' s).tail) ⟨fun h => ⟨h.1, h.2⟩, fun h => ⟨h.1, h.2⟩⟩

variable {old new made : String} {ps ss : List String}

/-- An empty segment is the first one, and a slash follows it. -/
theorem Full.anchored_of_cutText (h : Full old) (hcut : cutText '/' old = ps ++ [""] ++ ss) :
    ps = [] ∧ isAnchored old = true := by
  have hps : ps = [] := by
    cases ps with
    | nil => rfl
    | cons p ps =>
      refine absurd ?_ h.not_mem
      rw [hcut]
      simp
  subst hps
  refine ⟨rfl, isAnchored_iff_cutText.2 ?_⟩
  cases ss with
  | nil =>
    refine absurd ?_ h.ne_empty
    rw [← joinText_cutText '/' old, hcut]
    rfl
  | cons q qs => exact ⟨q, qs, hcut⟩

/-- Specifiers that are both anchored begin with the same segment. -/
theorem head?_eq_of_isAnchored (ho : isAnchored old = true) (hn : isAnchored new = true) :
    (cutText '/' old).head? = (cutText '/' new).head? := by
  obtain ⟨p, ps, hp⟩ := isAnchored_iff_cutText.1 ho
  obtain ⟨q, qs, hq⟩ := isAnchored_iff_cutText.1 hn
  rw [hp, hq]
  rfl

/-- **Without empty segments what is made is what is wanted.** -/
theorem Full.eq_of_reworked (ho : Full old) (hn : Full new)
    (hstyle : isAnchored new = isAnchored old)
    (h : Reworked (cutText '/' old) (cutText '/' new) (cutText '/' made)) : made = new := by
  obtain ⟨ps, os, ns, ss, ms, hp, hmade, -, hor⟩ := h
  rcases hor with rfl | rfl | rfl
  · rw [← joinText_cutText '/' made, hmade, ← hp.new_eq, joinText_cutText]
  -- an empty middle stands at the beginning, where both have the same segment
  · obtain ⟨hps, hanchored⟩ := ho.anchored_of_cutText hp.old_eq
    exact absurd (head?_eq_of_isAnchored hanchored (hstyle.trans hanchored)) (hp.head_ne hps)
  · obtain ⟨hps, hanchored⟩ := hn.anchored_of_cutText hp.new_eq
    exact absurd (head?_eq_of_isAnchored (hstyle.symm.trans hanchored) hanchored) (hp.head_ne hps)

end Specifier

/-! ## §2. The edit in a file. -/

open Specifier (Full isAnchored)

/-- An edit that takes its text out of a specifier, made in a file around the specifier. -/
theorem EditsTo.apply_eq {r : Reference} {wanted a b x : String} {e : Edit}
    (h : EditsTo r wanted e a b) (hx : r.span.start = x.utf8ByteSize) (y : String) :
    e.apply (x ++ r.specifier ++ y) = .ok (x ++ (a ++ e.written ++ b) ++ y) := by
  obtain ⟨htext, hoffset, -⟩ := h
  have hplace : byteLength (x.toList ++ a.toList) = e.offset := by
    rw [byteLength_append, hoffset, hx, utf8ByteSize_eq_byteLength]
  have hmade := Edit.apply_eq_ok (b := b.toList ++ y.toList) hplace
  have hbefore : x ++ r.specifier ++ y = String.ofList
      (x.toList ++ a.toList ++ e.expected.toList ++ (b.toList ++ y.toList)) := by
    apply String.toList_injective
    rw [htext]
    simp
  have hafter : x ++ (a ++ e.written ++ b) ++ y = String.ofList
      (x.toList ++ a.toList ++ e.written.toList ++ (b.toList ++ y.toList)) := by
    apply String.toList_injective
    simp
  rw [hbefore, hmade, hafter]

/-- The edit takes no byte outside of the specifier. -/
theorem EditsTo.contains {r : Reference} {wanted a b : String} {e : Edit}
    (h : EditsTo r wanted e a b)
    (hstop : r.span.stop = r.span.start + byteLength r.specifier.toList) :
    r.span.contains e.extent = true := by
  obtain ⟨htext, hoffset, -⟩ := h
  rw [htext] at hstop
  simp only [String.toList_append, byteLength_append] at hstop
  have hfrom : r.span.start ≤ e.offset := by omega
  have hto : e.offset + byteLength e.expected.toList ≤ r.span.stop := by omega
  simp [Span.contains, Edit.extent, hfrom, hto]

/-- An edit of a file that takes bytes of a span only, and makes one text of another there. -/
structure Edit.Rewrites (e : Edit) (path : Path) (span : Span) (before after : String) : Prop where
  /-- It is an edit of the file. -/
  target : e.target = path
  /-- It lies within the span. -/
  within : span.contains e.extent = true
  /-- It can be made, and what stands in front of the text and behind it stays. -/
  apply (x y : String) (h : x.utf8ByteSize = span.start) :
    e.apply (x ++ before ++ y) = .ok (x ++ after ++ y)

/-- **The smallest edit is exact**: it is there unless the texts are equal, it lies within the
    specifier, and in any file that has the specifier at its span it puts the wanted one there. -/
theorem specifierEdit?_exact (path : Path) {r : Reference} {wanted : String}
    (ho : Full r.specifier) (hn : Full wanted) (hstyle : isAnchored wanted = isAnchored r.specifier)
    (hspan : r.span.stop = r.span.start + r.specifier.utf8ByteSize) :
    (specifierEdit? path r wanted = none ↔ r.specifier = wanted) ∧
      ∀ e, specifierEdit? path r wanted = some e →
        e.Rewrites path r.span r.specifier wanted := by
  refine ⟨⟨fun h => ?_, fun h => ?_⟩, fun e h => ?_⟩
  · rcases specifierEdit?_eq_none h with h | h
    · exact h
    · exact ho.eq_of_reworked hn hstyle h
  · rw [specifierEdit?, if_pos (by simp [h])]
  · rw [utf8ByteSize_eq_byteLength] at hspan
    obtain ⟨htarget, -, a, b, hedits⟩ := specifierEdit?_eq_some h hn.ne_empty hspan
    have hmade : a ++ e.written ++ b = wanted := ho.eq_of_reworked hn hstyle hedits.2.2
    refine ⟨htarget, hedits.contains hspan, fun x y hx => ?_⟩
    rw [hedits.apply_eq hx.symm y, hmade]

/-- A segment is taken away in front of the last one, behind a character of two bytes. -/
theorem specifierEdit?_exact_shorter :
    let r : Reference := ⟨⟨"/p/a.ts"⟩, "../é/bar/baz", ⟨7, 20⟩, ⟨0, 21⟩, .imports, [], 1⟩
    let e : Edit := ⟨⟨"/p/a.ts"⟩, 13, .remove "bar/"⟩
    Full "../é/bar/baz" ∧ Full "../é/baz" ∧ isAnchored "../é/baz" = isAnchored "../é/bar/baz" ∧
      specifierEdit? ⟨"/p/a.ts"⟩ r "../é/baz" = some e ∧
      e.apply "import\"../é/bar/baz\"" = .ok "import\"../é/baz\"" := by
  intro r e
  have ho : Full r.specifier := by decide +kernel
  have hn : Full "../é/baz" := by decide +kernel
  have hstyle : isAnchored "../é/baz" = isAnchored r.specifier := by decide +kernel
  have hedit : specifierEdit? ⟨"/p/a.ts"⟩ r "../é/baz" = some e := by decide +kernel
  have hrewrites :=
    (specifierEdit?_exact ⟨"/p/a.ts"⟩ ho hn hstyle (by decide +kernel)).2 e hedit
  have hmade := hrewrites.apply "import\"" "\"" (by decide +kernel)
  exact ⟨ho, hn, hstyle, hedit, hmade⟩

end ModuleMove
