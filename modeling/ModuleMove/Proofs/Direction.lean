import ModuleMove.Proofs.Unit.Straight

/-!
# DIRECTIONS — what a delta says about the two directories

Below an absolute root both directories are lists of names, which part somewhere.  What the old
list has beyond that point is left and what the new list has is entered, so the direction says
which of the lists ends there.  Seen from the other end, what is left and what is entered change
places.

Main statements:
  * `Delta.exists_ends` — a move with a delta is one between two places in the project.
  * `Delta.compute_of_ends` — what its delta is.
  * `Delta.characterises_move` — a delta leads from the one directory to the other, and says how
    they lie to each other.
-/

namespace ModuleMove

open ModuleMove.Path

/-! ## §1. Where two lists part. -/

section

variable {α : Type}

theorem commonLength_comm [DecidableEq α] (as bs : List α) :
    commonLength as bs = commonLength bs as := by
  induction as generalizing bs with
  | nil => cases bs <;> rfl
  | cons a as ih =>
    cases bs with
    | nil => rfl
    | cons b bs => simp only [commonLength, ih bs, eq_comm (a := a)]

/-- Both lists begin with `cs`, and they go on by `as` and `bs`, which begin differently. -/
structure Parting (ls ms cs as bs : List α) : Prop where
  left : ls = cs ++ as
  right : ms = cs ++ bs
  apart : ∀ a, as.head? = some a → bs.head? ≠ some a

variable {ls ms cs as bs : List α}

theorem Parting.cons (a : α) (h : Parting ls ms cs as bs) :
    Parting (a :: ls) (a :: ms) (a :: cs) as bs :=
  ⟨by rw [h.left]; rfl, by rw [h.right]; rfl, h.apart⟩

/-- **Two lists part behind what they have in common.** -/
theorem parting_commonLength [DecidableEq α] (ls ms : List α) :
    Parting ls ms (ls.take (commonLength ls ms))
    (ls.drop (commonLength ls ms)) (ms.drop (commonLength ls ms)) := by
  induction ls generalizing ms with
  | nil => exact ⟨rfl, by cases ms <;> rfl, by simp [commonLength]⟩
  | cons a ls ih =>
    cases ms with
    | nil => exact ⟨rfl, rfl, by simp [commonLength]⟩
    | cons b ms =>
      by_cases hab : a = b
      · subst hab
        rw [show commonLength (a :: ls) (a :: ms) = commonLength ls ms + 1 by
          rw [commonLength, if_pos rfl, Nat.add_comm]]
        exact (ih ms).cons a
      · rw [show commonLength (a :: ls) (b :: ms) = 0 by rw [commonLength, if_neg hab]]
        refine ⟨rfl, rfl, fun c hc hc' => hab ?_⟩
        exact (Option.some.inj hc).trans (Option.some.inj hc').symm

theorem Parting.symm (h : Parting ls ms cs as bs) : Parting ms ls cs bs as :=
  ⟨h.right, h.left, fun a hb ha => h.apart a ha hb⟩

/-- One list begins with all of the other one if that has nothing beyond what they share. -/
theorem Parting.prefix_iff (h : Parting ls ms cs as bs) : ls <+: ms ↔ as = [] := by
  rw [h.left, h.right, List.prefix_append_right_inj]
  refine ⟨fun hp => ?_, fun ha => ha ▸ List.nil_prefix⟩
  cases as with
  | nil => rfl
  | cons a as =>
    obtain ⟨ks, rfl⟩ := hp
    exact absurd rfl (h.apart a rfl)

end

/-! ## §2. Directions. -/

/-- The direction of the way back. -/
def Direction.mirror : Direction → Direction
  | noMove => noMove
  | moveUp => moveDown
  | moveDown => moveUp
  | across => across

/-- The direction of a way on which directories are left and entered. -/
def Direction.along : List String → List String → Direction
  | [], [] => noMove
  | _ :: _, [] => moveUp
  | [], _ :: _ => moveDown
  | _ :: _, _ :: _ => across

theorem Direction.along_swap (xs ys : List String) : along ys xs = (along xs ys).mirror := by
  cases xs <;> cases ys <;> rfl

namespace Delta

/-- The delta keeps what is left and what is entered, and where that leads. -/
structure Along (δ : Delta) (xs ys : List String) : Prop where
  removed : δ.removed = xs
  added : δ.added = ys
  direction : δ.direction = .along xs ys
  levels : δ.levels = if xs = [] then ys.length else xs.length

/-- The delta of two lists of directories, the second of which goes on by the name `b`. -/
theorem along_between (ds es : List String) (b : String) :
    (if ds = es then ⟨b, .noMove, 0, [], []⟩ else between ds es : Delta).Along
      (ds.drop (commonLength ds es)) (es.drop (commonLength ds es)) := by
  have hp := parting_commonLength ds es
  split
  · rename_i heq
    have hd : ds.drop (commonLength ds es) = [] := hp.prefix_iff.1 (heq ▸ List.prefix_refl ds)
    have he : es.drop (commonLength ds es) = [] := hp.symm.prefix_iff.1 (heq ▸ List.prefix_refl ds)
    rw [hd, he]
    exact ⟨rfl, rfl, rfl, rfl⟩
  · rename_i hne
    have hboth : ds.drop (commonLength ds es) = [] → es.drop (commonLength ds es) ≠ [] := by
      intro hd he
      exact hne (hp.left.trans ((congrArg _ (hd.trans he.symm)).trans hp.right.symm))
    unfold between
    simp only
    generalize ds.drop (commonLength ds es) = xs at hboth ⊢
    generalize es.drop (commonLength ds es) = ys at hboth ⊢
    cases xs with
    | nil =>
      cases ys with
      | nil => exact absurd rfl (hboth rfl)
      | cons y ys => exact ⟨rfl, rfl, rfl, rfl⟩
    | cons x xs => cases ys <;> exact ⟨rfl, rfl, rfl, rfl⟩

/-! ## §3. The two ends of a move. -/

variable {old new root : Path} {rs ds es : List String} {a b : String} {δ : Delta}

/-- The names of both ends of a move behind those of the root: directories, and a name in them. -/
structure Ends (old new root : Path) (rs ds es : List String) (a b : String) : Prop where
  root : root.normalize.Straight rs
  old : old.normalize.Straight (rs ++ ds ++ [a])
  new : new.normalize.Straight (rs ++ es ++ [b])
  apart : rs ++ ds ++ [a] ≠ rs ++ es ++ [b]

theorem Ends.symm (h : Ends old new root rs ds es a b) : Ends new old root rs es ds b a :=
  ⟨h.root, h.new, h.old, h.apart.symm⟩

/-- What a delta is refused for. -/
theorem refusals_of_compute (h : compute old new root = .ok δ) :
    ¬ old.normalize.same new.normalize = true ∧ inside root.normalize old.normalize = true ∧
      inside root.normalize new.normalize = true := by
  unfold compute at h
  simp only at h
  split at h
  · cases h
  split at h
  · cases h
  split at h
  · cases h
  rename_i hne hold hnew
  exact ⟨hne, by simpa using hold, by simpa using hnew⟩

/-- **A move that has a delta is one between two places in the project.** -/
theorem exists_ends (habs : root.isAbsolute = true) (h : compute old new root = .ok δ) :
    ∃ rs ds es a b, Ends old new root rs ds es a b := by
  obtain ⟨rs, hrs⟩ := straight_normalize habs
  obtain ⟨hns, hold, hnew⟩ := refusals_of_compute h
  -- what is inside the root has names behind those of the root
  have hplace : ∀ p : Path, inside root.normalize p.normalize = true →
      ∃ ds a, p.normalize.Straight (rs ++ ds ++ [a]) := by
    intro p hp
    obtain ⟨cs, c, hc⟩ := inside_iff.1 hp
    obtain ⟨ns, hns⟩ := (normal_components_normalize p).goesOn
      (hc.trans (by rw [hrs.components, List.cons_append]))
    obtain ⟨ms, hms, hgo⟩ := GoesOn.of_append hrs.goesOn hns hc
    rcases List.eq_nil_or_concat' ms with rfl | ⟨ds, a, rfl⟩
    · simp at hms
    · refine ⟨ds, a, straight_of_goesOn ?_⟩
      rw [List.append_assoc]
      exact hrs.goesOn.trans hgo
  obtain ⟨ds, a, hds⟩ := hplace old hold
  obtain ⟨es, b, hes⟩ := hplace new hnew
  refine ⟨rs, ds, es, a, b, hrs, hds, hes, fun heq => ?_⟩
  rw [heq] at hds
  exact hns (same_iff.2 (by rw [hds.components, hes.components]))

/-- **The delta of a move between two places in the project.** -/
theorem compute_of_ends (h : Ends old new root rs ds es a b) : compute old new root =
    .ok (if ds = es then ⟨b, .noMove, 0, [], []⟩ else between ds es) := by
  obtain ⟨P, hP, hPs⟩ := h.old.exists_parent
  obtain ⟨Q, hQ, hQs⟩ := h.new.exists_parent
  have hinside : ∀ {p : Path} {ks : List String} {k : String},
      p.Straight (rs ++ ks ++ [k]) → inside root.normalize p = true := by
    intro p ks k hp
    refine inside_iff.2 ⟨ks.map .name, .name k, ?_⟩
    rw [hp.components, h.root.components]
    simp
  have hbelow : ∀ {p : Path} {ks : List String}, p.Straight (rs ++ ks) →
      segmentsBelow p root.normalize = ks := by
    intro p ks hp
    have hc : p.components = root.normalize.components ++ ks.map .name := by
      rw [hp.components, h.root.components]
      simp
    rw [segmentsBelow_eq hc, textsOf_map_name]
  have hname : new.normalize.fileName? = some b :=
    fileName?_eq_some_iff.2 ⟨.root :: (rs ++ es).map .name, by rw [h.new.components]; simp⟩
  unfold compute
  simp only
  rw [if_neg, hinside h.old, hinside h.new, hP, hQ, hname]
  · simp only [Option.getD_some, hPs.same_iff hQs, List.append_cancel_left_eq, hbelow hPs,
      hbelow hQs, Bool.not_true, Bool.false_eq_true, if_false]
    exact (apply_ite Except.ok _ _ _).symm
  · rw [h.old.same_iff h.new]
    exact h.apart

/-! ## §4. The way in words. -/

/-- The text of the way stands for a step up for each directory that is left, and for the names of
    those that are entered. -/
theorem inner_relativeText {xs ys : List String} (hr : δ.removed = xs) (ha : δ.added = ys)
    (hys : ∀ s ∈ ys, IsName s) :
    inner δ.relativeText = List.replicate xs.length .up ++ ys.map .name ∧
      isAbsolute ⟨δ.relativeText⟩ = false := by
  let way : List Component := List.replicate xs.length .up ++ ys.map .name
  have hplain : ∀ c ∈ way, Plain c := by
    intro c hc
    rcases List.mem_append.1 hc with hc | hc
    · exact .inl (List.eq_of_mem_replicate hc)
    · obtain ⟨s, hs, rfl⟩ := List.mem_map.1 hc
      exact plain_name (hys s hs)
  have htexts : way.map Component.text = δ.removed.map (fun _ => "..") ++ δ.added := by
    rw [List.map_append, ha, hr, List.map_replicate, List.map_const']
    exact congrArg _ (textsOf_map_name ys)
  by_cases hway : way = []
  · -- the directory itself is a dot
    obtain ⟨hx, hy⟩ := List.append_eq_nil_iff.1 hway
    have hx : xs = [] := by simpa using hx
    have hy : ys = [] := by simpa using hy
    have hdot : δ.relativeText = "." := by
      unfold relativeText
      rw [hr, ha, hx, hy]
      rfl
    rw [hdot, show _ ++ _ = way from rfl, hway]
    exact ⟨rfl, by decide⟩
  · have htext : δ.relativeText = joinText '/' (way.map Component.text) := by
      unfold relativeText
      rw [htexts, if_neg]
      intro hnil
      rw [Bool.and_eq_true, List.isEmpty_iff, List.isEmpty_iff] at hnil
      rw [hnil.1, hnil.2] at htexts
      exact hway (List.map_eq_nil_iff.1 htexts)
    have hcut := cutText_texts hway hplain
    rw [htext]
    refine ⟨inner_texts hplain, ?_⟩
    -- no first piece is empty
    cases hc : way with
    | nil => exact absurd hc hway
    | cons c cs =>
      rw [hc] at hcut hplain
      rw [← Bool.not_eq_true, ← Specifier.isAnchored_iff_isAbsolute, Bool.not_eq_true]
      refine Specifier.not_anchored_of_cutText hcut ?_
      rcases hplain c (List.mem_cons_self ..) with rfl | ⟨s, rfl, hs⟩
      · decide
      · exact hs.1

/-- **The way in words leads to the directory that is entered.** -/
theorem components_relativeText {P : Path} {rs xs ys : List String} (hr : δ.removed = xs)
    (ha : δ.added = ys) (hP : P.Straight (rs ++ xs)) (hys : ∀ s ∈ ys, IsName s) :
    (P.join ⟨δ.relativeText⟩).normalize.components = .root :: (rs ++ ys).map .name := by
  obtain ⟨hinner, hrel⟩ := inner_relativeText hr ha hys
  have hroot : P.components = [.root] ++ (rs ++ xs).map .name := hP.components
  rw [components_normalize, components_join hP.goesOn.text_ne_empty hrel, hinner,
    normalComponents_append, normalComponents_of_normal hP.goesOn.normal, settle_append, hroot,
    settle_ups, settle_names, List.append_assoc, ← List.map_append]
  rfl

/-! ## §5. Both directories. -/

/-- The delta describes the way from the directory `P` to the directory `Q`. -/
structure Describes (δ : Delta) (P Q : Path) : Prop where
  /-- As a change of a directory it makes `Q` of `P`, -/
  applied : (δ.applyTo P).same Q = true
  /-- and as a way in words it leads there. -/
  followed : (P.join ⟨δ.relativeText⟩).normalize.same Q = true
  /-- The direction says whether both are one, -/
  stays : δ.direction = .noMove ↔ P.same Q = true
  /-- whether `Q` is above `P`, -/
  rises : δ.direction = .moveUp ↔ inside Q P = true
  /-- whether it is below, -/
  descends : δ.direction = .moveDown ↔ inside P Q = true
  /-- and whether it is neither. -/
  crosses : δ.direction = .across ↔ P.isUnder Q = false ∧ Q.isUnder P = false
  /-- What is left and what is entered begin differently. -/
  apart : ∀ s, δ.removed.head? = some s → δ.added.head? ≠ some s
  /-- The directories that are left are counted, -/
  left : δ.direction = .moveUp ∨ δ.direction = .across → δ.levels = δ.removed.length
  /-- or those that are entered, if none is left. -/
  entered : δ.direction = .moveDown → δ.levels = δ.added.length

/-- The delta is that of the way back. -/
structure Mirrors (δ δ' : Delta) : Prop where
  removed : δ'.removed = δ.added
  added : δ'.added = δ.removed
  direction : δ'.direction = δ.direction.mirror

theorem Along.mirrors {δ' : Delta} {xs ys : List String} (h : δ.Along xs ys)
    (h' : δ'.Along ys xs) : δ.Mirrors δ' :=
  ⟨h'.removed.trans h.added.symm, h'.added.trans h.removed.symm, by
    rw [h'.direction, h.direction, Direction.along_swap]⟩

/-- A delta that keeps where the lists of directories part describes the way from the one directory
    to the other. -/
theorem Along.describes {P Q : Path} {cs xs ys : List String} (h : δ.Along xs ys)
    (hP : P.Straight (rs ++ ds)) (hQ : Q.Straight (rs ++ es)) (hp : Parting ds es cs xs ys) :
    δ.Describes P Q := by
  rw [hp.left, ← List.append_assoc] at hP
  rw [hp.right, ← List.append_assoc] at hQ
  have hys : ∀ s ∈ ys, IsName s := fun s hs => hQ.1 s (List.mem_append_right _ hs)
  have hunder : P.isUnder Q = true ↔ ys = [] := by
    rw [hP.isUnder_iff hQ, List.append_assoc, List.append_assoc, List.prefix_append_right_inj,
      ← hp.left, ← hp.right, hp.symm.prefix_iff]
  have hover : Q.isUnder P = true ↔ xs = [] := by
    rw [hQ.isUnder_iff hP, List.append_assoc, List.append_assoc, List.prefix_append_right_inj,
      ← hp.left, ← hp.right, hp.prefix_iff]
  have hsame : P.same Q = true ↔ xs = [] ∧ ys = [] := by
    rw [hP.same_iff hQ, List.append_cancel_left_eq]
    constructor
    · rintro rfl
      cases xs with
      | nil => exact ⟨rfl, rfl⟩
      | cons x xs => exact absurd rfl (hp.apart x rfl)
    · rintro ⟨rfl, rfl⟩
      rfl
  have hsame' : Q.same P = true ↔ xs = [] ∧ ys = [] := by
    rw [← hsame]
    exact ⟨same_symm, same_symm⟩
  have happly : (δ.applyTo P).components = .root :: (rs ++ cs).map .name ++ ys.map .name := by
    have hr : δ.removed = textsOf (xs.map .name) := by rw [h.removed, textsOf_map_name]
    have ha : δ.added = textsOf (ys.map .name) := by rw [h.added, textsOf_map_name]
    refine components_applyTo hr ha ?_ (by simp) ?_
    · rw [hP.components, List.cons_append, ← List.map_append]
    · rw [List.cons_append, ← List.map_append]
      exact hQ.components ▸ hQ.goesOn.normal
  constructor
  case applied => rw [same_iff, happly, hQ.components, List.cons_append, ← List.map_append]
  case followed => rw [same_iff, components_relativeText h.removed h.added hP hys, hQ.components]
  case apart => rw [h.removed, h.added]; exact hp.apart
  all_goals
    -- what is said of the direction depends on which of the lists end where they part
    simp only [inside, Bool.and_eq_true, Bool.not_eq_true', ← Bool.not_eq_true, hunder, hover,
      hsame, hsame', h.direction, h.levels, h.removed, h.added]
    cases xs <;> cases ys <;> simp [Direction.along]

/-- **A delta characterises its move.** It describes the way from the directory of the one end to
    that of the other, and the way back has its mirror image. -/
theorem characterises_move (habs : root.isAbsolute = true) (h : compute old new root = .ok δ) :
    ∃ P Q, old.normalize.parent? = some P ∧ new.normalize.parent? = some Q ∧ δ.Describes P Q ∧
      ∃ δ', compute new old root = .ok δ' ∧ δ.Mirrors δ' := by
  obtain ⟨rs, ds, es, a, b, hends⟩ := exists_ends habs h
  obtain ⟨P, hP, hPs⟩ := hends.old.exists_parent
  obtain ⟨Q, hQ, hQs⟩ := hends.new.exists_parent
  rw [compute_of_ends hends] at h
  obtain rfl := Except.ok.inj h
  have halong := along_between ds es b
  -- seen from the other end, the lists part at the same point
  have hback := along_between es ds a
  rw [commonLength_comm es ds] at hback
  exact ⟨P, Q, hP, hQ, halong.describes hPs hQs (parting_commonLength ds es), _,
    compute_of_ends hends.symm, halong.mirrors hback⟩

/-- A move across, asked for with detours. -/
theorem across_characterised : ∃ δ P Q, Path.isAbsolute ⟨"/proj/app/.."⟩ = true ∧
    compute ⟨"/proj/app/./ui/x.ts"⟩ ⟨"/proj/ui/../app/lib/io/y.ts"⟩ ⟨"/proj/app/.."⟩ = .ok δ ∧
      δ.direction = .across ∧ δ.removed = ["ui"] ∧ δ.added = ["lib", "io"] ∧
      δ.Describes P Q := by
  have habs : Path.isAbsolute ⟨"/proj/app/.."⟩ = true := by decide
  have hδ : compute ⟨"/proj/app/./ui/x.ts"⟩ ⟨"/proj/ui/../app/lib/io/y.ts"⟩ ⟨"/proj/app/.."⟩
      = .ok ⟨"lib/io", .across, 1, ["ui"], ["lib", "io"]⟩ := by decide +kernel
  obtain ⟨P, Q, -, -, hdescribes, -⟩ := characterises_move habs hδ
  exact ⟨_, P, Q, habs, hδ, rfl, rfl, rfl, hdescribes⟩

end Delta

end ModuleMove
