import ModuleMove.Proofs.Edit.Splice
import Mathlib.Data.List.Perm.Basic

/-!
# MAKING A BATCH — from the end of the text to its beginning

A batch is made one edit after the other on a text that changes.  What carries the proof: when
edits are not in conflict, each of them stops at or before the offset of the edit made before it.
So everything up to that offset is still the original text, and everything behind it is already
its splice.

Main statements:
  * `makingOrder_descending` — no edit reaches into what has been changed before.
  * `applyInTurn_eq_spliced` — made in such an order, edits give the splice.
  * `fitsIn_of_applyInTurn` — and they can be made only if each fits the original text.
  * `applyBatch_simultaneous` — a batch is made at once, or not at all.
-/

namespace ModuleMove

/-! ## §1. The order in which edits are made. -/

/-- Edit `b`, made after edit `a`, stops where `a` begins or before. -/
def StopsBefore (a b : Edit) : Prop := b.extent.stop ≤ a.offset

theorem madeBefore_trans (a b c : Edit × Nat) (h : madeBefore a.2 a.1 b.2 b.1 = true)
    (h' : madeBefore b.2 b.1 c.2 c.1 = true) : madeBefore a.2 a.1 c.2 c.1 = true := by
  unfold madeBefore at *
  cases ha : a.1.isInsert <;> cases hb : b.1.isInsert <;> cases hc : c.1.isInsert <;>
    grind

theorem madeBefore_total (a b : Edit × Nat) :
    (madeBefore a.2 a.1 b.2 b.1 || madeBefore b.2 b.1 a.2 a.1) = true := by
  unfold madeBefore
  cases ha : a.1.isInsert <;> cases hb : b.1.isInsert <;> grind

/-- The edits of a batch with their numbers, in the order in which they are made. -/
def numberedOrder (es : List Edit) : List (Edit × Nat) :=
  es.zipIdx.mergeSort fun a b => madeBefore a.2 a.1 b.2 b.1

theorem makingOrder_eq (es : List Edit) : makingOrder es = (numberedOrder es).map (·.1) := rfl

theorem numberedOrder_perm (es : List Edit) : (numberedOrder es).Perm es.zipIdx :=
  List.mergeSort_perm _ _

theorem numberedOrder_pairwise (es : List Edit) :
    (numberedOrder es).Pairwise fun a b => madeBefore a.2 a.1 b.2 b.1 = true :=
  List.pairwise_mergeSort (fun a b c => madeBefore_trans a b c) madeBefore_total _

theorem makingOrder_perm (es : List Edit) : (makingOrder es).Perm es := by
  have h := (numberedOrder_perm es).map (·.1)
  rwa [List.zipIdx_map_fst] at h

theorem mem_makingOrder {es : List Edit} {e : Edit} : e ∈ makingOrder es ↔ e ∈ es :=
  (makingOrder_perm es).mem_iff

theorem offset_le_of_madeBefore {i j : Nat} {a b : Edit} (h : madeBefore i a j b = true) :
    b.offset ≤ a.offset := by
  unfold madeBefore at h
  grind

theorem stopsBefore_of_madeBefore {i j : Nat} {a b : Edit} (ha : a.Substantial)
    (hb : b.Substantial) (hab : a.Bounded) (hbb : b.Bounded)
    (h : madeBefore i a j b = true) (hc : a.conflicts b = false) : StopsBefore a b := by
  have ha1 := a.offset_le_stop
  have hb1 := b.offset_le_stop
  unfold StopsBefore
  unfold madeBefore at h
  rw [Edit.conflicts_eq hab hbb] at hc
  -- where an edit stops depends on whether it takes something away, so that there are four cases
  cases hai : a.isInsert with
  | true =>
    cases hbi : b.isInsert with
    | true =>
      have := Edit.extent_stop_of_isInsert hbi
      simp only [hai, hbi] at h
      grind
    | false =>
      have := Edit.offset_lt_stop hb hbi
      simp only [hai, hbi] at h hc
      grind
  | false =>
    have := Edit.offset_lt_stop ha hai
    cases hbi : b.isInsert with
    | true =>
      have := Edit.extent_stop_of_isInsert hbi
      simp only [hai, hbi] at h hc
      grind
    | false =>
      have := Edit.offset_lt_stop hb hbi
      simp only [hai, hbi] at h hc
      grind

/-- **No edit reaches into what has been changed before it.** -/
theorem makingOrder_descending {es : List Edit} (hs : ∀ e ∈ es, e.Substantial)
    (hb : ∀ e ∈ es, e.Bounded) (hc : es.Pairwise fun a b => a.conflicts b = false) :
    (makingOrder es).Pairwise StopsBefore := by
  have hzip : es.zipIdx.Pairwise fun a b => a.1.conflicts b.1 = false := by
    have h : (es.zipIdx.map (·.1)).Pairwise fun a b => a.conflicts b = false := by
      rwa [List.zipIdx_map_fst]
    exact List.pairwise_map.1 h
  -- conflicts do not depend on the order of two edits, so they can be moved to the sorted list
  have hfree : (numberedOrder es).Pairwise fun a b => a.1.conflicts b.1 = false :=
    (numberedOrder_perm es).symm.pairwise hzip fun {a b} h => by
      rw [Edit.conflicts_comm]
      exact h
  rw [makingOrder_eq, List.pairwise_map]
  refine ((numberedOrder_pairwise es).and hfree).imp_of_mem ?_
  intro a b ha hb' hab
  have hmem : ∀ p ∈ numberedOrder es, p.1 ∈ es := fun p hp =>
    mem_makingOrder.1 (List.mem_map_of_mem hp)
  exact stopsBefore_of_madeBefore (hs _ (hmem a ha)) (hs _ (hmem b hb')) (hb _ (hmem a ha))
    (hb _ (hmem b hb')) hab.1 hab.2

/-- The edit that is made first has the largest offset. -/
theorem offset_le_of_makingOrder {es : List Edit} {d : Edit} {order : List Edit}
    (h : makingOrder es = d :: order) : ∀ e ∈ es, e.offset ≤ d.offset := by
  have hdesc : (makingOrder es).Pairwise fun a b => b.offset ≤ a.offset := by
    rw [makingOrder_eq, List.pairwise_map]
    exact (numberedOrder_pairwise es).imp offset_le_of_madeBefore
  intro e he
  have he := mem_makingOrder.2 he
  rw [h] at he hdesc
  rcases List.mem_cons.1 he with rfl | he
  · exact Nat.le_refl _
  · exact (List.pairwise_cons.1 hdesc).1 e he

/-- Read backwards, the order has the insertions at one byte in the order of the batch. -/
theorem insertionsAt_reverse_makingOrder (es : List Edit) (o : Nat) :
    insertionsAt (makingOrder es).reverse o = insertionsAt es o := by
  let here : Edit × Nat → Bool := fun p => p.1.isInsert && p.1.offset == o
  have hmap : ∀ l : List (Edit × Nat),
      insertionsAt (l.map (·.1)) o = (l.filter here).map (·.1) := by
    intro l
    exact List.filter_map
  have hzip : insertionsAt es o = (es.zipIdx.filter here).map (·.1) := by
    rw [← hmap, List.zipIdx_map_fst]
  rw [hzip, makingOrder_eq, ← List.map_reverse, hmap]
  congr 1
  -- both lists hold the same numbered insertions, and both are in the order of their numbers
  let byNumber : Edit × Nat → Edit × Nat → Prop := fun a b => a.2 ≤ b.2
  refine @List.Perm.eq_of_pairwise _ byNumber _ _ ?_ ?_ ?_ ?_
  · intro a b ha hb hab hba
    have hperm : (numberedOrder es).reverse.Perm es.zipIdx :=
      (List.reverse_perm _).trans (numberedOrder_perm es)
    have ha' := List.mem_zipIdx_iff_getElem?.1 (hperm.mem_iff.1 (List.mem_of_mem_filter ha))
    have hb' := List.mem_zipIdx_iff_getElem?.1 (List.mem_of_mem_filter hb)
    have he : a.2 = b.2 := Nat.le_antisymm hab hba
    rw [he, hb'] at ha'
    exact Prod.ext (Option.some.inj ha').symm he
  · rw [List.filter_reverse, List.pairwise_reverse, List.pairwise_filter]
    refine (numberedOrder_pairwise es).imp ?_
    intro a b hab ha hb
    simp only [here, Bool.and_eq_true, beq_iff_eq] at ha hb
    unfold madeBefore at hab
    rw [ha.1, hb.1, ha.2, hb.2] at hab
    simpa using hab
  · have hlt : es.zipIdx.Pairwise fun a b => a.2 < b.2 := by
      have h : (es.zipIdx.map (·.2)).Pairwise (· < ·) := by
        rw [List.zipIdx_map_snd]
        exact List.pairwise_lt_range'
      exact List.pairwise_map.1 h
    exact (hlt.imp fun h => Nat.le_of_lt h).filter _
  · exact ((List.reverse_perm _).trans (numberedOrder_perm es)).filter _

/-! ## §2. Splices do not depend on the order of a batch. -/

/-- Of edits that are not in conflict, at most one takes text away from a given byte on. -/
theorem replacementsAt_length_le {es : List Edit} (hs : ∀ e ∈ es, e.Substantial)
    (hb : ∀ e ∈ es, e.Bounded) (hc : es.Pairwise fun a b => a.conflicts b = false) (o : Nat) :
    (replacementsAt es o).length ≤ 1 := by
  have hp : (replacementsAt es o).Pairwise fun a b => a.conflicts b = false := hc.filter _
  have hmem : ∀ e ∈ replacementsAt es o, e ∈ es ∧ e.isInsert = false ∧ e.offset = o := by
    intro e he
    simpa [replacementsAt] using he
  generalize replacementsAt es o = l at hp hmem
  rcases l with _ | ⟨a, _ | ⟨b, r⟩⟩
  · exact Nat.zero_le 1
  · exact Nat.le_refl 1
  · -- two of them would both take away their first byte
    exfalso
    have hab := (List.pairwise_cons.1 hp).1 b (List.mem_cons_self ..)
    obtain ⟨ha, hai, hao⟩ := hmem a (List.mem_cons_self ..)
    obtain ⟨hb', hbi, hbo⟩ := hmem b (List.mem_cons_of_mem _ (List.mem_cons_self ..))
    have h1 := Edit.offset_lt_stop (hs a ha) hai
    have h2 := Edit.offset_lt_stop (hs b hb') hbi
    rw [Edit.conflicts_eq (hb a ha) (hb b hb'), hai, hbi] at hab
    simp only [Bool.and_eq_false_iff, decide_eq_false_iff_not] at hab
    omega

/-- **Only the order among insertions at one byte matters.** -/
theorem spliced_perm {es fs : List Edit} (cs : List Char) (hs : ∀ e ∈ es, e.Substantial)
    (hb : ∀ e ∈ es, e.Bounded) (hc : es.Pairwise fun a b => a.conflicts b = false) (hp : es.Perm fs)
    (hi : ∀ o, insertionsAt es o = insertionsAt fs o) : spliced es cs = spliced fs cs := by
  unfold spliced
  apply splicedEnd_congr
  intro n _
  -- at most one edit takes something away from a byte on, so that order does not matter there
  have hrep : replacementsAt es n = replacementsAt fs n := by
    have hlen := replacementsAt_length_le hs hb hc n
    have hpf : (replacementsAt es n).Perm (replacementsAt fs n) := hp.filter _
    cases hl : replacementsAt es n with
    | nil =>
      rw [hl] at hpf
      exact hpf.nil_eq
    | cons e r =>
      rw [hl] at hlen hpf
      obtain rfl : r = [] := List.length_eq_zero_iff.1 (by simpa using hlen)
      exact hpf.singleton_eq
  have htake : takenAt es n = takenAt fs n := hp.any_eq
  unfold actionAt insertedAt replacedAt
  rw [hi n, hrep, htake]

/-! ## §3. Making edits one after the other. -/

theorem applyInTurn_cons (content : String) (e : Edit) (es : List Edit) :
    applyInTurn content (e :: es) = (e.apply content).bind fun s => applyInTurn s es := rfl

theorem Edit.apply_eq_ok {e : Edit} {a b : List Char} (ha : byteLength a = e.offset) :
    e.apply (String.ofList (a ++ e.expected.toList ++ b))
      = .ok (String.ofList (a ++ e.written.toList ++ b)) := by
  have h : e.applyChars? (a ++ e.expected.toList ++ b) = some (a ++ e.written.toList ++ b) :=
    Edit.applyChars?_eq_some_iff.2 ⟨a, b, rfl, ha, rfl⟩
  unfold Edit.apply
  rw [String.toList_ofList, h]

/-- The edit that is made first fits the text. -/
theorem fitsIn_of_applyInTurn_cons {content : String} {e : Edit} {es : List Edit} {r : String}
    (h : applyInTurn content (e :: es) = .ok r) : e.FitsIn content.toList := by
  rw [applyInTurn_cons] at h
  unfold Edit.apply at h
  cases hc : e.applyChars? content.toList with
  | some cs => exact Edit.applyChars?_isSome_iff.1 (by rw [hc]; rfl)
  | none => rw [hc] at h; cases h

/-- An edit in front of others that begin where it stops or later. -/
theorem splicedEnd_cons {e : Edit} {es : List Edit} (b c : List Char) (hs : e.Substantial)
    (hes : ∀ f ∈ es, e.extent.stop + byteLength b ≤ f.offset) :
    splicedEnd (e :: es) e.offset (e.expected.toList ++ b ++ c)
      = e.written.toList ++ b ++ splicedEnd es (e.extent.stop + byteLength b) c := by
  rw [List.append_assoc, List.append_assoc]
  cases hi : e.isInsert with
  | true =>
    have hstop := Edit.extent_stop_of_isInsert hi
    rw [hstop] at hes ⊢
    rw [Edit.expected_of_isInsert hi]
    show splicedEnd (e :: es) e.offset ([] ++ (b ++ c)) = _
    rw [List.nil_append, splicedEnd_cons_insert es _ hi, splicedEnd_append_of_le c hes]
  | false =>
    rw [splicedEnd_cons_take _ hi hs fun f hf => Nat.le_trans (Nat.le_add_right _ _) (hes f hf),
      splicedEnd_append_of_le c hes]

/-- **Edits made from the end of the text on give its splice.**  The text that is still
    untouched is `p`; what is behind it is the splice of the original end `s` by the edits that
    have been made. -/
theorem applyInTurn_eq_spliced {order made : List Edit} {p s : List Char}
    (hord : order.Pairwise StopsBefore) (hsub : ∀ e ∈ order, e.Substantial)
    (hfit : ∀ e ∈ order, e.FitsIn p) (hmade : ∀ f ∈ made, byteLength p ≤ f.offset) :
    applyInTurn (String.ofList (p ++ splicedEnd made (byteLength p) s)) order
      = .ok (String.ofList (spliced (order.reverse ++ made) (p ++ s))) := by
  induction order generalizing made p s with
  | nil =>
    have h : splicedEnd made 0 (p ++ s) = p ++ splicedEnd made (0 + byteLength p) s :=
      splicedEnd_append_of_le s (by simpa using hmade)
    show Except.ok _ = Except.ok _
    rw [List.reverse_nil, List.nil_append, spliced, h, Nat.zero_add]
  | cons e order ih =>
    obtain ⟨hnext, hord⟩ := List.pairwise_cons.1 hord
    obtain ⟨a, b, hp, ha⟩ := hfit e (List.mem_cons_self ..)
    have hse := hsub e (List.mem_cons_self ..)
    have hstop : e.extent.stop + byteLength b = byteLength p := by
      rw [hp, byteLength_append, byteLength_append, ha]
      rfl
    -- the changed text is again an untouched beginning with a splice behind it
    have hstep : splicedEnd (e :: made) e.offset (e.expected.toList ++ b ++ s)
        = e.written.toList ++ b ++ splicedEnd made (e.extent.stop + byteLength b) s :=
      splicedEnd_cons b s hse (by rw [hstop]; exact hmade)
    rw [hstop] at hstep
    have hnew : a ++ e.written.toList ++ (b ++ splicedEnd made (byteLength p) s)
        = a ++ splicedEnd (e :: made) (byteLength a) (e.expected.toList ++ b ++ s) := by
      rw [ha, hstep]
      simp [List.append_assoc]
    have hall : p ++ s = a ++ (e.expected.toList ++ b ++ s) := by
      rw [hp]
      simp [List.append_assoc]
    have hold : p ++ splicedEnd made (byteLength p) s
        = a ++ e.expected.toList ++ (b ++ splicedEnd made (byteLength p) s) := by
      have := congrArg (· ++ splicedEnd made (byteLength p) s) hp
      simpa [List.append_assoc] using this
    rw [applyInTurn_cons, hold, Edit.apply_eq_ok ha, hnew]
    show applyInTurn _ order = _
    have hfit' : ∀ f ∈ order, f.FitsIn a := by
      intro f hf
      have hfp := hfit f (List.mem_cons_of_mem e hf)
      rw [hp, List.append_assoc] at hfp
      have hle : f.extent.stop ≤ e.offset := hnext f hf
      exact hfp.of_append (by omega)
    have hmade' : ∀ f ∈ e :: made, byteLength a ≤ f.offset := by
      intro f hf
      rcases List.mem_cons.1 hf with rfl | hf
      · omega
      · have := hmade f hf
        have := e.offset_le_stop
        omega
    rw [ih hord (fun f hf => hsub f (List.mem_cons_of_mem e hf)) hfit' hmade', hall,
      List.reverse_cons, List.append_assoc order.reverse]
    rfl

/-- **Edits that can be made one after the other fit the original text.**  The text that is still
    untouched is `p`. -/
theorem fitsIn_of_applyInTurn {order : List Edit} {p t : List Char} {r : String}
    (h : applyInTurn (String.ofList (p ++ t)) order = .ok r)
    (hord : order.Pairwise StopsBefore) (hle : ∀ e ∈ order, e.extent.stop ≤ byteLength p) :
    ∀ e ∈ order, e.FitsIn p := by
  induction order generalizing p t with
  | nil => intro e he; simp at he
  | cons e order ih =>
    obtain ⟨hnext, hord⟩ := List.pairwise_cons.1 hord
    -- the edit stops in the part that is unchanged, so that it fits that part
    have hfit : e.FitsIn p := by
      have hall := fitsIn_of_applyInTurn_cons h
      rw [String.toList_ofList] at hall
      exact hall.of_append (hle e (List.mem_cons_self ..))
    obtain ⟨a, b, hp, ha⟩ := hfit
    have hold : p ++ t = a ++ e.expected.toList ++ (b ++ t) := by
      rw [hp]
      simp [List.append_assoc]
    rw [applyInTurn_cons, hold, Edit.apply_eq_ok ha, List.append_assoc] at h
    -- the others stop before it, so that for them the unchanged part ends where it begins
    have hrest := ih h hord fun f hf => by
      rw [ha]
      exact hnext f hf
    intro f hf
    rcases List.mem_cons.1 hf with rfl | hf
    · exact ⟨a, b, hp, ha⟩
    · rw [hp, List.append_assoc]
      exact (hrest f hf).append _

/-! ## §4. Batches. -/

theorem firstConflict?_eq_none_iff {es : List Edit} :
    firstConflict? es = none ↔ es.Pairwise fun a b => a.conflicts b = false := by
  induction es with
  | nil => simp [firstConflict?]
  | cons a es ih =>
    rw [List.pairwise_cons, firstConflict?]
    cases hf : es.find? a.conflicts with
    | some b =>
      have hb := List.find?_some hf
      have hmem := List.mem_of_find?_eq_some hf
      constructor
      · intro h
        simp at h
      · rintro ⟨h, -⟩
        rw [h b hmem] at hb
        simp at hb
    | none =>
      have hnone : ∀ b ∈ es, a.conflicts b = false := by
        intro b hb
        simpa using List.find?_eq_none.1 hf b hb
      simp only [ih]
      exact ⟨fun h => ⟨hnone, h⟩, fun h => h.2⟩

theorem conflicts_of_firstConflict? {es : List Edit} {a b : Edit}
    (h : firstConflict? es = some (a, b)) : a ∈ es ∧ b ∈ es ∧ a.conflicts b = true := by
  induction es with
  | nil => simp [firstConflict?] at h
  | cons e es ih =>
    rw [firstConflict?] at h
    cases hf : es.find? e.conflicts with
    | some c =>
      rw [hf] at h
      simp only [Option.some.injEq, Prod.mk.injEq] at h
      obtain ⟨rfl, rfl⟩ := h
      exact ⟨List.mem_cons_self .., List.mem_cons_of_mem _ (List.mem_of_find?_eq_some hf),
        List.find?_some hf⟩
    | none =>
      rw [hf] at h
      obtain ⟨ha, hb, hc⟩ := ih h
      exact ⟨List.mem_cons_of_mem _ ha, List.mem_cons_of_mem _ hb, hc⟩

/-- A batch without conflicts whose edits all fit is made, and gives the splice. -/
theorem applyBatch_eq_ok {es : List Edit} (path : Path) (content : String)
    (hs : ∀ e ∈ es, e.Substantial) (hb : ∀ e ∈ es, e.Bounded)
    (hc : es.Pairwise fun a b => a.conflicts b = false)
    (hfit : ∀ e ∈ es, e.FitsIn content.toList) :
    applyBatch path content es
      = .ok (String.ofList (spliced es content.toList), (makingOrder es).map Edit.describe) := by
  let cs := content.toList
  have hturn : applyInTurn (String.ofList (cs ++ splicedEnd [] (byteLength cs) [])) (makingOrder es)
      = .ok (String.ofList (spliced ((makingOrder es).reverse ++ []) (cs ++ []))) :=
    applyInTurn_eq_spliced (makingOrder_descending hs hb hc)
      (fun e he => hs e (mem_makingOrder.1 he)) (fun e he => hfit e (mem_makingOrder.1 he))
      (by simp)
  have hstart : cs ++ splicedEnd [] (byteLength cs) [] = cs := by
    simp [splicedEnd, splicedFrom, insertedAt, insertionsAt]
  rw [hstart, String.ofList_toList, List.append_nil, List.append_nil] at hturn
  -- the edits are made in another order, which keeps that of insertions at one byte
  have hsplice : spliced (makingOrder es).reverse content.toList = spliced es content.toList := by
    have hp : es.Perm (makingOrder es).reverse :=
      (makingOrder_perm es).symm.trans (List.reverse_perm _).symm
    exact (spliced_perm _ hs hb hc hp
      fun o => (insertionsAt_reverse_makingOrder es o).symm).symm
  rw [hsplice] at hturn
  unfold applyBatch
  rw [firstConflict?_eq_none_iff.2 hc]
  simp only [hturn]
  rfl

/-- A batch that is made has no conflicts, and its edits are made in turn. -/
theorem exists_applyInTurn {es : List Edit} {path : Path} {content : String}
    {r : String × List String} (h : applyBatch path content es = .ok r) :
    (es.Pairwise fun a b => a.conflicts b = false) ∧
      ∃ s, applyInTurn content (makingOrder es) = .ok s := by
  unfold applyBatch at h
  cases hf : firstConflict? es with
  | some p =>
    rw [hf] at h
    cases h
  | none =>
    rw [hf] at h
    refine ⟨firstConflict?_eq_none_iff.1 hf, ?_⟩
    cases ht : applyInTurn content (makingOrder es) with
    | ok s => exact ⟨s, rfl⟩
    | error f => simp only [ht] at h; cases h

/-- **In a batch that is made, each edit stops at a machine word**: the first one fits the text, and
    no other has a larger offset. -/
theorem bounded_of_applyBatch {es : List Edit} {path : Path} {content : String}
    {r : String × List String} (hlen : byteLength content.toList < wordCount / 2)
    (hm : ∀ e ∈ es, e.Holdable) (h : applyBatch path content es = .ok r) :
    ∀ e ∈ es, e.Bounded := by
  obtain ⟨-, s, hturn⟩ := exists_applyInTurn h
  intro e he
  cases ho : makingOrder es with
  | nil =>
    have he := mem_makingOrder.2 he
    rw [ho] at he
    cases he
  | cons d order =>
    rw [ho] at hturn
    have hfirst : d.extent.stop ≤ byteLength content.toList :=
      (fitsIn_of_applyInTurn_cons hturn).stop_le
    have hoffset := offset_le_of_makingOrder ho e he
    have hle := d.offset_le_stop
    have hexpected := (hm e he).expected
    show e.offset + byteLength e.expected.toList < wordCount
    omega

/-- A batch that is made has no conflicts, and each of its edits fits the original text. -/
theorem fitsIn_of_applyBatch {es : List Edit} {path : Path} {content : String}
    {r : String × List String} (hs : ∀ e ∈ es, e.Substantial) (hb : ∀ e ∈ es, e.Bounded)
    (h : applyBatch path content es = .ok r) :
    (es.Pairwise fun a b => a.conflicts b = false) ∧ ∀ e ∈ es, e.FitsIn content.toList := by
  obtain ⟨hc, s, hturn⟩ := exists_applyInTurn h
  refine ⟨hc, ?_⟩
  have hdesc := makingOrder_descending hs hb hc
  intro e he
  have he := mem_makingOrder.2 he
  cases ho : makingOrder es with
  | nil =>
    rw [ho] at he
    cases he
  | cons d order =>
    rw [ho] at he hturn hdesc
    -- the first edit meets the original text, and with it the bound for all others
    have hd : d.extent.stop ≤ byteLength content.toList :=
      (fitsIn_of_applyInTurn_cons hturn).stop_le
    have hle : ∀ f ∈ d :: order, f.extent.stop ≤ byteLength content.toList := by
      intro f hf
      rcases List.mem_cons.1 hf with rfl | hf
      · exact hd
      · have h1 : f.extent.stop ≤ d.offset := (List.pairwise_cons.1 hdesc).1 f hf
        have h2 := d.offset_le_stop
        omega
    have hstart : content = String.ofList (content.toList ++ []) := by simp
    rw [hstart] at hturn
    exact fitsIn_of_applyInTurn hturn hdesc hle e he

/-- **A batch is made at once, or not at all.**  It can be made exactly when no two of its edits
    clash and each of them fits the original text; what comes of it is the splice, whatever the
    order of the edits apart from that among insertions at one byte; and edits that clash are
    reported whatever else is wrong.  The text and the edits are such as a machine can hold.  Where
    an edit stops is counted in machine words: spans are exact for every edit that stops at one
    (`Edit.Bounded.span_eq`), and no edit of a batch that can be made stops anywhere else. -/
theorem applyBatch_simultaneous (path : Path) (content : String) (es : List Edit)
    (hs : ∀ e ∈ es, e.Substantial) (hlen : byteLength content.toList < wordCount / 2)
    (hm : ∀ e ∈ es, e.Holdable) :
    ((∃ s ds, applyBatch path content es = .ok (s, ds)) ↔
      (es.Pairwise fun a b => ¬ a.Clashes b) ∧ ∀ e ∈ es, e.FitsIn content.toList) ∧
    (∀ s ds, applyBatch path content es = .ok (s, ds) →
      s.toList = spliced es content.toList ∧
      ∀ fs : List Edit, es.Perm fs → (∀ o, insertionsAt es o = insertionsAt fs o) →
        ∃ ds', applyBatch path content fs = .ok (s, ds')) ∧
    (¬ (es.Pairwise fun a b => ¬ a.Clashes b) →
      ∃ a ∈ es, ∃ b ∈ es, a.Clashes b ∧ applyBatch path content es =
        .error (.overlappingEdits path (min a.offset b.offset) (max a.offset b.offset))) := by
  have hclash : (es.Pairwise fun a b => ¬ a.Clashes b) ↔
      es.Pairwise fun a b => a.conflicts b = false := by
    have hiff : ∀ a ∈ es, ∀ b ∈ es, ¬ a.Clashes b ↔ a.conflicts b = false := by
      intro a ha b hb
      rw [← Edit.conflicts_iff_clashes (hs a ha) (hs b hb) (hm a ha) (hm b hb), Bool.not_eq_true]
    constructor
    · intro h
      exact h.imp_of_mem fun ha hb => (hiff _ ha _ hb).1
    · intro h
      exact h.imp_of_mem fun ha hb => (hiff _ ha _ hb).2
  rw [hclash]
  refine ⟨⟨?_, ?_⟩, ?_, ?_⟩
  · rintro ⟨s, ds, h⟩
    exact fitsIn_of_applyBatch hs (bounded_of_applyBatch hlen hm h) h
  · rintro ⟨hc, hfit⟩
    have hb : ∀ e ∈ es, e.Bounded := fun e he => (hfit e he).bounded (by omega)
    exact ⟨_, _, applyBatch_eq_ok path content hs hb hc hfit⟩
  · intro s ds h
    have hb := bounded_of_applyBatch hlen hm h
    obtain ⟨hc, hfit⟩ := fitsIn_of_applyBatch hs hb h
    rw [applyBatch_eq_ok path content hs hb hc hfit] at h
    simp only [Except.ok.injEq, Prod.mk.injEq] at h
    refine ⟨by rw [← h.1, String.toList_ofList], ?_⟩
    intro fs hp hi
    have hs' : ∀ e ∈ fs, e.Substantial := fun e he => hs e (hp.mem_iff.2 he)
    have hb' : ∀ e ∈ fs, e.Bounded := fun e he => hb e (hp.mem_iff.2 he)
    have hc' : fs.Pairwise fun a b => a.conflicts b = false :=
      hp.pairwise hc fun {a b} hab => by
        rw [Edit.conflicts_comm]
        exact hab
    have hfit' : ∀ e ∈ fs, e.FitsIn content.toList := fun e he => hfit e (hp.mem_iff.2 he)
    rw [applyBatch_eq_ok path content hs' hb' hc' hfit', ← spliced_perm _ hs hb hc hp hi, h.1]
    exact ⟨_, rfl⟩
  · intro hn
    rw [← firstConflict?_eq_none_iff] at hn
    obtain ⟨⟨a, b⟩, hab⟩ := Option.ne_none_iff_exists'.1 hn
    obtain ⟨ha, hb, hc⟩ := conflicts_of_firstConflict? hab
    refine ⟨a, ha, b, hb,
      (Edit.conflicts_iff_clashes (hs a ha) (hs b hb) (hm a ha) (hm b hb)).1 hc, ?_⟩
    unfold applyBatch
    rw [hab]

/-- Two insertions in front of a removed stretch and one behind it, after a character of two bytes:
    the hypotheses hold, and the batch gives what the splice says.  With another edit that reaches
    into the stretch the overlap is reported, although that edit would be stale as well. -/
theorem applyBatch_around_removal :
    let es : List Edit := [⟨⟨"a.ts"⟩, 2, .insert "x"⟩, ⟨⟨"a.ts"⟩, 2, .remove "bc"⟩,
      ⟨⟨"a.ts"⟩, 4, .insert "y"⟩, ⟨⟨"a.ts"⟩, 2, .insert "z"⟩]
    let gs : List Edit := [⟨⟨"a.ts"⟩, 2, .remove "bc"⟩, ⟨⟨"a.ts"⟩, 3, .replace "xy" "z"⟩]
    (∃ ds, applyBatch ⟨"a.ts"⟩ "ébcd" es = .ok ("éxzyd", ds)) ∧
      ∃ m n, applyBatch ⟨"a.ts"⟩ "ébcd" gs = .error (.overlappingEdits ⟨"a.ts"⟩ m n) := by
  intro es gs
  have hs : ∀ e ∈ es ++ gs, e.Substantial := by
    simp [es, gs, Edit.Substantial, Edit.isInsert, Edit.expected]
  have hm : ∀ e ∈ es ++ gs, e.Holdable := by
    have hall : ∀ e ∈ es ++ gs,
        e.offset < wordCount ∧ byteLength e.expected.toList < wordCount / 2 := by decide +kernel
    exact fun e he => ⟨(hall e he).1, (hall e he).2⟩
  have hlen : byteLength "ébcd".toList < wordCount / 2 := by decide +kernel
  have hes : ∀ e ∈ es, e ∈ es ++ gs := fun e he => List.mem_append_left gs he
  have hgs : ∀ e ∈ gs, e ∈ es ++ gs := fun e he => List.mem_append_right es he
  constructor
  · have hfit : ∀ e ∈ es, e.FitsIn "ébcd".toList := by
      simp only [← Edit.applyChars?_isSome_iff]
      decide
    have hclash : es.Pairwise fun a b => ¬ a.Clashes b := by
      have hc : es.Pairwise fun a b => a.conflicts b = false := by decide +kernel
      refine hc.imp_of_mem fun {a b} ha hb h => ?_
      rw [← Edit.conflicts_iff_clashes (hs a (hes a ha)) (hs b (hes b hb)) (hm a (hes a ha))
        (hm b (hes b hb)), h]
      simp
    obtain ⟨hiff, hsplice, -⟩ := applyBatch_simultaneous ⟨"a.ts"⟩ "ébcd" es
      (fun e he => hs e (hes e he)) hlen fun e he => hm e (hes e he)
    obtain ⟨s, ds, hok⟩ := hiff.2 ⟨hclash, hfit⟩
    have hs' : s = "éxzyd" := by
      have h := congrArg String.ofList (hsplice s ds hok).1
      rw [String.ofList_toList] at h
      rw [h]
      decide +kernel
    exact ⟨ds, hs' ▸ hok⟩
  · obtain ⟨-, -, hreport⟩ := applyBatch_simultaneous ⟨"a.ts"⟩ "ébcd" gs
      (fun e he => hs e (hgs e he)) hlen fun e he => hm e (hgs e he)
    -- the byte at 3 is in both spans
    have hclash : ¬ gs.Pairwise fun a b => ¬ a.Clashes b := by
      intro h
      exact (List.pairwise_cons.1 h).1 _ (List.mem_singleton_self _)
        (.inl ⟨3, by unfold Edit.Spans; decide +kernel, by unfold Edit.Spans; decide +kernel⟩)
    obtain ⟨a, -, b, -, -, herror⟩ := hreport hclash
    exact ⟨_, _, herror⟩

/-- No overlap is seen at the last machine word, where a span stops before it starts. -/
example : let e : Edit := ⟨⟨"a.ts"⟩, wordCount - 1, .remove "ab"⟩
    e.span = ⟨wordCount - 1, 1⟩ ∧ e.conflicts e = false := by
  decide +kernel

end ModuleMove
