import ModuleMove.Proofs.Edit.Batch

/-!
# PATCHED TEXTS — what stands where, after a batch of edits

A text is patched by putting other texts in the place of some of its stretches; what lies between
them is kept.  A site is a stretch of a text with at most one edit in it.  When each edit of a batch
is made in a site of its own, the splice of the batch patches the sites and keeps everything else.

Main statements:
  * `exists_patched` — a batch that is made in sites patches them.
-/

namespace ModuleMove

/-! ## §1. Patches. -/

/-- A text in the place of a stretch of another one. -/
structure Patch where
  /-- The bytes of the stretch, in the original text. -/
  span : Span
  /-- What stands in its place. -/
  text : String

/-- A text, of which the first character is at byte `o` of the original, and what patches make of
    it: the text between two patches is kept. -/
inductive Patched : List Patch → Nat → List Char → List Char → Prop where
  /-- Without further patches, the rest is kept. -/
  | rest (o : Nat) (cs : List Char) : Patched [] o cs cs
  /-- Up to the next patch the text is kept; the patch stands in the place of its stretch. -/
  | patch {ps : List Patch} {o : Nat} (p : Patch) (a b : List Char) {cs ds : List Char}
      (hstart : p.span.start = o + byteLength a)
      (hstop : p.span.stop = p.span.start + byteLength b)
      (hrest : Patched ps p.span.stop cs ds) :
      Patched (p :: ps) o (a ++ b ++ cs) (a ++ p.text.toList ++ ds)

/-! ## §2. Sites. -/

/-- A stretch of a text, and the edit that is made in it, if one is. -/
structure Site where
  /-- The offset of the stretch. -/
  start : Nat
  /-- What stands there. -/
  old : String
  /-- The edit. -/
  edit? : Option Edit
  deriving DecidableEq

namespace Site

/-- The bytes of the stretch. -/
def span (x : Site) : Span := ⟨x.start, x.start + byteLength x.old.toList⟩

/-- What stands there after the edit. -/
def new (x : Site) : String := String.ofList (splicedEnd x.edit?.toList x.start x.old.toList)

/-- The patch that the edit makes. -/
def patch (x : Site) : Patch := ⟨x.span, x.new⟩

/-- The stretch stands in a text of which the first character is at byte `o`. -/
def StandsIn (x : Site) (o : Nat) (cs : List Char) : Prop :=
  ∃ a b, cs = a ++ x.old.toList ++ b ∧ x.start = o + byteLength a

/-- The edit of the site is made in the stretch. -/
def Holds (x : Site) : Prop :=
  ∀ e, x.edit? = some e → e.Substantial ∧
    ∃ a b, x.old = a ++ e.expected ++ b ∧ e.offset = x.start + byteLength a.toList

/-- Two sites do not reach into one another, and have two edits. -/
def Clear (x y : Site) : Prop :=
  (x.span.stop ≤ y.start ∨ y.span.stop ≤ x.start) ∧
    ∀ e, x.edit? = some e → y.edit? ≠ some e

theorem Clear.symm {x y : Site} (h : x.Clear y) : y.Clear x :=
  ⟨h.1.symm, fun e hy hx => h.2 e hx hy⟩

theorem new_of_none {x : Site} (h : x.edit? = none) : x.new = x.old := by
  unfold new
  rw [h]
  show String.ofList (splicedFrom [] x.start x.old.toList ++ _) = _
  rw [splicedFrom_nil]
  show String.ofList (x.old.toList ++ []) = _
  rw [List.append_nil, String.ofList_toList]

/-- A splice that begins with the edit of a site makes it there, and goes on behind the site. -/
theorem splicedEnd_of_some {x : Site} {e : Edit} {es : List Edit} {a b : String}
    (hs : e.Substantial) (hold : x.old = a ++ e.expected ++ b)
    (ho : e.offset = x.start + byteLength a.toList) (hes : ∀ f ∈ es, x.span.stop ≤ f.offset)
    (cs : List Char) : splicedEnd (e :: es) x.start (x.old.toList ++ cs)
      = (a ++ e.written ++ b).toList ++ splicedEnd es x.span.stop cs := by
  have hchars : x.old.toList = a.toList ++ (e.expected.toList ++ b.toList) := by
    rw [hold, String.toList_append, String.toList_append, List.append_assoc]
  have hstop : x.span.stop = e.extent.stop + byteLength b.toList := by
    show x.start + byteLength x.old.toList = e.offset + byteLength e.expected.toList + _
    rw [hchars, byteLength_append, byteLength_append]
    omega
  have hlater : ∀ f ∈ e :: es, x.start + byteLength a.toList ≤ f.offset := by
    intro f hf
    rcases List.mem_cons.1 hf with rfl | hf
    · omega
    · have := hes f hf
      have := e.offset_le_stop
      omega
  rw [hchars, List.append_assoc, splicedEnd_append_of_le _ hlater, ← ho, hstop,
    splicedEnd_cons b.toList cs hs fun f hf => by
      have := hes f hf
      omega]
  simp only [String.toList_append, List.append_assoc]

theorem new_of_some {x : Site} {e : Edit} {a b : String} (h : x.edit? = some e)
    (hs : e.Substantial) (hold : x.old = a ++ e.expected ++ b)
    (ho : e.offset = x.start + byteLength a.toList) : x.new = a ++ e.written ++ b := by
  have hsplice := splicedEnd_of_some hs hold ho (List.forall_mem_nil _) []
  unfold new
  rw [h]
  show String.ofList (splicedEnd [e] x.start x.old.toList) = _
  rw [List.append_nil] at hsplice
  rw [hsplice]
  show String.ofList (_ ++ []) = _
  rw [List.append_nil, String.ofList_toList]

/-- The edit of a site lies in its stretch. -/
theorem Holds.within {x : Site} (h : x.Holds) {e : Edit} (he : x.edit? = some e) :
    x.start ≤ e.offset ∧ e.extent.stop ≤ x.span.stop := by
  obtain ⟨-, a, b, hold, ho⟩ := h e he
  refine ⟨by omega, ?_⟩
  show e.offset + byteLength e.expected.toList ≤ x.start + byteLength x.old.toList
  rw [hold, String.toList_append, String.toList_append, byteLength_append, byteLength_append]
  omega

/-- Behind one stretch, a text holds the stretches that begin there. -/
theorem StandsIn.behind {x y : Site} {o : Nat} {a cs : List Char}
    (hx : x.start = o + byteLength a) (hy : y.StandsIn o (a ++ x.old.toList ++ cs))
    (h : x.span.stop ≤ y.start) : y.StandsIn x.span.stop cs := by
  obtain ⟨c, d, heq, hc⟩ := hy
  have hstop : x.span.stop = x.start + byteLength x.old.toList := rfl
  have hle : byteLength (a ++ x.old.toList) ≤ byteLength c := by
    rw [byteLength_append]
    omega
  rw [List.append_assoc] at heq
  rw [List.append_assoc, ← List.append_assoc] at heq
  obtain ⟨z, rfl, rfl⟩ := append_eq_append_of_byteLength_le heq hle
  refine ⟨z, d, by rw [List.append_assoc], ?_⟩
  rw [hc, byteLength_append, byteLength_append]
  omega

end Site

/-! ## §3. Batches made in sites. -/

/-- Sites in the order of a text are patched by the splice of their edits. -/
theorem patched_of_sorted {xs : List Site} {o : Nat} {cs : List Char}
    (hstand : ∀ x ∈ xs, x.StandsIn o cs) (hhold : ∀ x ∈ xs, x.Holds)
    (hs : xs.Pairwise fun x y => x.span.stop ≤ y.start) :
    Patched (xs.map Site.patch) o cs (splicedEnd (xs.filterMap Site.edit?) o cs) := by
  induction xs generalizing o cs with
  | nil =>
    have hnone : splicedEnd [] o cs = cs := by
      unfold splicedEnd
      rw [splicedFrom_nil]
      exact List.append_nil _
    rw [List.filterMap_nil, hnone]
    exact .rest o cs
  | cons x xs ih =>
    obtain ⟨hx, hxs⟩ := List.pairwise_cons.1 hs
    obtain ⟨a, b, rfl, ha⟩ := hstand x (List.mem_cons_self ..)
    have hrest := ih (fun y hy => (hstand y (List.mem_cons_of_mem _ hy)).behind ha (hx y hy))
      (fun y hy => hhold y (List.mem_cons_of_mem _ hy)) hxs
    -- the edits of the other sites are made behind this one
    have hlater : ∀ f ∈ xs.filterMap Site.edit?, x.span.stop ≤ f.offset := by
      intro f hf
      obtain ⟨y, hy, he⟩ := List.mem_filterMap.1 hf
      have := (hhold y (List.mem_cons_of_mem _ hy)).within he
      have := hx y hy
      omega
    have hstop : x.span.stop = x.start + byteLength x.old.toList := rfl
    have hsplice : splicedEnd ((x :: xs).filterMap Site.edit?) o (a ++ x.old.toList ++ b)
        = a ++ x.new.toList ++ splicedEnd (xs.filterMap Site.edit?) x.span.stop b := by
      cases he : x.edit? with
      | none =>
        rw [List.filterMap_cons_none he, Site.new_of_none he]
        rw [splicedEnd_append_of_le b (a := a ++ x.old.toList)]
        · rw [byteLength_append, hstop, ha, Nat.add_assoc]
        · intro f hf
          have := hlater f hf
          rw [byteLength_append]
          omega
      | some e =>
        obtain ⟨hsub, c, d, hold, ho⟩ := hhold x (List.mem_cons_self ..) e he
        rw [List.filterMap_cons_some he, Site.new_of_some he hsub hold ho, List.append_assoc,
          splicedEnd_append_of_le, ← ha, Site.splicedEnd_of_some hsub hold ho hlater,
          ← List.append_assoc]
        intro f hf
        rcases List.mem_cons.1 hf with rfl | hf
        · omega
        · have := hlater f hf
          omega
    rw [hsplice]
    exact .patch x.patch a x.old.toList ha hstop hrest

/-- The order of sites: by where they begin, then by where they stop. -/
def Site.le (x y : Site) : Bool :=
  x.start < y.start || (x.start == y.start && x.span.stop ≤ y.span.stop)

theorem Site.le_trans (x y z : Site) (h : x.le y = true) (h' : y.le z = true) : x.le z = true := by
  unfold Site.le at *
  simp only [Bool.or_eq_true, Bool.and_eq_true, decide_eq_true_eq, beq_iff_eq] at *
  omega

theorem Site.le_total (x y : Site) : (x.le y || y.le x) = true := by
  unfold Site.le
  simp only [Bool.or_eq_true, Bool.and_eq_true, decide_eq_true_eq, beq_iff_eq]
  omega

/-- Edits of which no two are insertions at one byte are in any order at each byte. -/
theorem insertionsAt_perm {es fs : List Edit} (hp : es.Perm fs)
    (h : es.Pairwise fun a b => ¬ (a.isInsert = true ∧ b.isInsert = true ∧ a.offset = b.offset))
    (o : Nat) : insertionsAt es o = insertionsAt fs o := by
  have hpi : (insertionsAt es o).Perm (insertionsAt fs o) := hp.filter _
  have hone : (insertionsAt es o).Pairwise fun _ _ => False := by
    refine (h.filter _).imp_of_mem fun {a b} ha hb hab => hab ?_
    have ha := (List.mem_filter.1 ha).2
    have hb := (List.mem_filter.1 hb).2
    simp only [Bool.and_eq_true, beq_iff_eq] at ha hb
    exact ⟨ha.1, hb.1, by rw [ha.2, hb.2]⟩
  generalize insertionsAt es o = l at hpi hone
  rcases l with _ | ⟨a, _ | ⟨b, r⟩⟩
  · exact hpi.nil_eq
  · exact hpi.singleton_eq
  · exact ((List.pairwise_cons.1 hone).1 b (List.mem_cons_self ..)).elim

/-- Edits that are not in conflict are listed once, unless they are insertions. -/
theorem nodup_of_not_conflicts {es : List Edit} (hs : ∀ e ∈ es, e.Substantial)
    (hb : ∀ e ∈ es, e.Bounded) (hc : es.Pairwise fun a b => a.conflicts b = false)
    (hi : es.Pairwise fun a b => ¬ (a.isInsert = true ∧ b.isInsert = true ∧ a.offset = b.offset)) :
    es.Nodup := by
  refine (hc.and hi).imp_of_mem fun {a b} ha _ hab heq => ?_
  subst heq
  obtain ⟨hc, hi⟩ := hab
  cases ha' : a.isInsert with
  | true => exact hi ⟨ha', ha', rfl⟩
  | false =>
    -- an edit that takes something away is in conflict with itself
    have hlt := Edit.offset_lt_stop (hs a ha) ha'
    rw [Edit.conflicts_eq (hb a ha) (hb a ha), ha'] at hc
    simp only [Bool.and_self, decide_eq_false_iff_not] at hc
    omega

/-- **A batch whose edits are made in sites patches them** and keeps everything else. -/
theorem exists_patched {xs : List Site} {es : List Edit} {cs : List Char}
    (hstand : ∀ x ∈ xs, x.StandsIn 0 cs) (hhold : ∀ x ∈ xs, x.Holds)
    (hclear : xs.Pairwise Site.Clear) (hbound : ∀ e ∈ es, e.Bounded)
    (hconf : es.Pairwise fun a b => a.conflicts b = false)
    (hins : es.Pairwise fun a b => ¬ (a.isInsert = true ∧ b.isInsert = true ∧ a.offset = b.offset))
    (hmem : ∀ e, e ∈ es ↔ ∃ x ∈ xs, x.edit? = some e) :
    ∃ ps, (∀ p, p ∈ ps ↔ ∃ x ∈ xs, x.patch = p) ∧ Patched ps 0 cs (spliced es cs) := by
  have hperm : (xs.mergeSort Site.le).Perm xs := List.mergeSort_perm xs Site.le
  have hsorted : (xs.mergeSort Site.le).Pairwise fun x y => x.span.stop ≤ y.start := by
    have hle := List.pairwise_mergeSort Site.le_trans Site.le_total xs
    have hclear' := hperm.symm.pairwise hclear fun {x y} h => h.symm
    refine hle.imp₂ (fun x y hxy hc => ?_) hclear'
    unfold Site.le at hxy
    simp only [Bool.or_eq_true, Bool.and_eq_true, decide_eq_true_eq, beq_iff_eq] at hxy
    have hx : x.start ≤ x.span.stop := Nat.le_add_right _ _
    have hy : y.start ≤ y.span.stop := Nat.le_add_right _ _
    have := hc.1
    omega
  have hsub : ∀ e ∈ es, e.Substantial := by
    intro e he
    obtain ⟨x, hx, hxe⟩ := (hmem e).1 he
    exact (hhold x hx e hxe).1
  -- the edits in the order of their sites are the same edits
  have hedits : es.Perm ((xs.mergeSort Site.le).filterMap Site.edit?) := by
    have hnodup := nodup_of_not_conflicts hsub hbound hconf hins
    refine (List.perm_ext_iff_of_nodup hnodup ?_).2 fun e => ?_
    · refine List.pairwise_filterMap.2 ((hperm.symm.pairwise hclear fun {x y} h => h.symm).imp ?_)
      intro x y hc e he f hf heq
      rw [heq] at he
      exact hc.2 f he hf
    · rw [hmem, List.mem_filterMap]
      constructor
      · rintro ⟨x, hx, he⟩
        exact ⟨x, hperm.mem_iff.2 hx, he⟩
      · rintro ⟨x, hx, he⟩
        exact ⟨x, hperm.mem_iff.1 hx, he⟩
  refine ⟨(xs.mergeSort Site.le).map Site.patch, fun p => ?_, ?_⟩
  · rw [List.mem_map]
    constructor
    · rintro ⟨x, hx, rfl⟩
      exact ⟨x, hperm.mem_iff.1 hx, rfl⟩
    · rintro ⟨x, hx, rfl⟩
      exact ⟨x, hperm.mem_iff.2 hx, rfl⟩
  · rw [spliced_perm cs hsub hbound hconf hedits (insertionsAt_perm hedits hins)]
    exact patched_of_sorted (fun x hx => hstand x (hperm.mem_iff.1 hx))
      (fun x hx => hhold x (hperm.mem_iff.1 hx)) hsorted

end ModuleMove
