import ModuleMove.Proofs.Delta
import ModuleMove.Specifier

/-!
# SPECIFIERS — what is written for a place is read as that place

A specifier that does not begin with two slashes is read by its pieces, from its base: the root
of the project if it is anchored, the directory of the file if not.  A specifier that is written
for a place leads there, in either style.

Main statements:
  * `Specifier.components_resolve` — a specifier is read by its pieces.
  * `Specifier.resolve_respecify` — a specifier leads to the place that it was written for.
-/

namespace ModuleMove

open ModuleMove.Path

namespace Specifier

/-! ## §1. Reading. -/

/-- Whether a specifier is read from the root of the project. -/
def isAnchored (specifier : String) : Bool := (afterStart? "/" specifier).isSome

/-- The specifier begins with two slashes. -/
def Doubled (specifier : String) : Prop := ∃ t, specifier = "//" ++ t

theorem doubled_iff {s : String} :
    Doubled s ↔ ∃ p ps, cutText '/' s = "" :: "" :: p :: ps := by
  constructor
  · rintro ⟨t, rfl⟩
    have hcut : cutText '/' ("//" ++ t) = "" :: "" :: cutText '/' t := by
      have h1 : cutText '/' ("/" ++ "/" ++ t) = cutText '/' "/" ++ cutText '/' t :=
        cutText_slash "/" t
      exact h1
    obtain ⟨p, ps, hc⟩ := List.exists_cons_of_ne_nil (cutText_ne_nil '/' t)
    exact ⟨p, ps, by rw [hcut, hc]⟩
  · rintro ⟨p, ps, h⟩
    refine ⟨joinText '/' (p :: ps), ?_⟩
    rw [← joinText_cutText '/' s, h, joinText_cons "" (by simp), joinText_cons "" (by simp)]
    rfl

/-- The directory that a specifier is read from. -/
def base (specifier : String) (dir root : Path) : Path := if isAnchored specifier then root else dir

theorem isAnchored_iff {s : String} : isAnchored s = true ↔ ∃ t, s = "/" ++ t := by
  unfold isAnchored
  rw [Option.isSome_iff_exists]
  exact exists_congr fun t => afterStart?_eq_some

theorem isAnchored_iff_isAbsolute {s : String} : isAnchored s = true ↔ isAbsolute ⟨s⟩ = true := by
  rw [isAnchored_iff, isAbsolute_iff]

theorem inner_slash (t : String) : Path.inner ("/" ++ t) = Path.inner t := by
  have hcut : cutText '/' ("/" ++ t) = "" :: cutText '/' t := cutText_slash "" t
  unfold Path.inner
  rw [hcut]
  rfl

/-- **A specifier is read by its pieces**, from its base. -/
theorem components_resolve {s : String} {dir root : Path} (hd : dir.text ≠ "")
    (hr : root.text ≠ "") (hs : ¬ Doubled s) :
    (resolve s dir root).components
      = normalComponents ((base s dir root).components ++ Path.inner s) := by
  unfold resolve
  split
  · rename_i t ht
    rw [afterStart?_eq_some] at ht
    have hbase : base s dir root = root := if_pos (isAnchored_iff.2 ⟨t, ht⟩)
    -- behind the anchor there is no second slash, which would begin at the root of the tree
    have hrel : isAbsolute ⟨t⟩ = false := by
      rw [Bool.eq_false_iff, Ne, isAbsolute_iff]
      rintro ⟨u, hu⟩
      have hu : t = "/" ++ u := hu
      exact hs ⟨u, by rw [ht, hu, ← String.append_assoc]; rfl⟩
    rw [components_normalize, components_join hr hrel, hbase, ht, inner_slash]
  · rename_i ht
    have hno : ¬ isAnchored s = true := by
      unfold isAnchored
      rw [ht]
      decide
    have hbase : base s dir root = dir := if_neg hno
    have hrel : isAbsolute ⟨s⟩ = false := by
      rw [Bool.eq_false_iff]
      exact fun h => hno (isAnchored_iff_isAbsolute.2 h)
    rw [components_normalize, components_join hd hrel, hbase]

/-- A specifier whose pieces stand for the same is read as the same place from the same base. -/
theorem resolve_congr {s t : String} {dir root : Path} (hd : dir.text ≠ "") (hr : root.text ≠ "")
    (hs : ¬ Doubled s) (ht : ¬ Doubled t) (ha : isAnchored s = isAnchored t)
    (hi : Path.inner s = Path.inner t) : (resolve s dir root).same (resolve t dir root) = true := by
  rw [same_iff, components_resolve hd hr hs, components_resolve hd hr ht, hi]
  unfold base
  rw [ha]

/-- Read from an absolute directory, a specifier goes on from the root of the tree by names. -/
theorem goesOn_resolve (s : String) {dir root : Path} {ds rs : List String}
    (hd : top.GoesOn dir ds) (hr : top.GoesOn root rs) :
    ∃ ts, top.GoesOn (resolve s dir root) ts := by
  have hjoin : ∀ (p q : Path) (ns : List String), top.GoesOn p ns →
      (p.join q).isAbsolute = true := by
    intro p q ns hp
    cases hq : q.isAbsolute with
    | true => rwa [join_of_isAbsolute hq]
    | false =>
      rw [isAbsolute_iff_components, components_join hp.text_ne_empty hq, hp.2]
      exact ⟨_, rfl⟩
  unfold resolve
  split
  · exact goesOn_normalize (hjoin root _ rs hr)
  · exact goesOn_normalize (hjoin dir _ ds hd)

/-! ## §2. Relative specifiers. -/

/-- The first pieces of a relative specifier: as many steps up as lead out of the directory. -/
def ups : Nat → List String
  | 0 => ["."]
  | n + 1 => List.replicate (n + 1) ".."

theorem slash_not_mem_ups {n : Nat} : ∀ s ∈ ups n, '/' ∉ s.toList := by
  intro s hs
  cases n with
  | zero =>
    rw [List.mem_singleton.1 hs]
    decide
  | succ n =>
    rw [List.eq_of_mem_replicate hs]
    decide

theorem filterMap_ups (n : Nat) : (ups n).filterMap componentOf? = List.replicate n .up := by
  cases n with
  | zero => rfl
  | succ n =>
    have h : ∀ m, (List.replicate m "..").filterMap componentOf? = List.replicate m .up := by
      intro m
      induction m with
      | zero => rfl
      | succ m ih =>
        show Component.up :: (List.replicate m "..").filterMap componentOf? = _
        rw [ih, List.replicate_succ]
    exact h (n + 1)

/-- The pieces of a relative specifier, with the names that both places share counted. -/
theorem cutText_relative_drop {dir target : Path} {ds ts : List String} (hd : top.GoesOn dir ds)
    (ht : top.GoesOn target ts) :
    let k := commonLength (ds.map Component.name) (ts.map Component.name)
    cutText '/' (relative dir target) = ups (ds.drop k).length ++ ts.drop k := by
  intro k
  have hn : commonLength dir.components target.components = 1 + k := by
    rw [hd.2, ht.2]
    show (if Component.root = Component.root then _ else _) = _
    rw [if_pos rfl]
    rfl
  have hdrop : ∀ (p : Path) (ns : List String), top.GoesOn p ns →
      p.components.drop (1 + k) = (ns.drop k).map Component.name := by
    intro p ns hp
    rw [hp.2, Nat.add_comm, List.map_drop]
    rfl
  have hups : ((ds.drop k).map Component.name).map (fun _ => "..")
      = List.replicate (ds.drop k).length ".." := by
    rw [List.map_map]
    exact List.map_const ..
  have hstart : ∀ m, (if (List.replicate m "..").isEmpty then ["."]
      else List.replicate m "..") = ups m := by
    intro m
    cases m <;> rfl
  unfold relative
  simp only [hn, hdrop dir ds hd, hdrop target ts ht, textsOf_map_name, hups, hstart]
  apply cutText_joinText
  · intro h
    have := (List.append_eq_nil_iff.1 h).1
    cases hl : (ds.drop k).length with
    | zero => rw [hl] at this; cases this
    | succ m => rw [hl] at this; cases this
  · intro s hs
    rcases List.mem_append.1 hs with hs | hs
    · exact slash_not_mem_ups s hs
    · exact (ht.1 s (List.mem_of_mem_drop hs)).2.2.2

/-- **The pieces of a relative specifier** climb out of what the directory does not share with the
    place, and go on by what the place has beyond it. -/
theorem cutText_relative {dir target : Path} {ds ts : List String} (hd : top.GoesOn dir ds)
    (ht : top.GoesOn target ts) : ∃ cs xs ys, ds = cs ++ xs ∧ ts = cs ++ ys ∧
      cutText '/' (relative dir target) = ups xs.length ++ ys := by
  let k := commonLength (ds.map Component.name) (ts.map Component.name)
  -- both paths are below the root, so that they share names behind it
  have hshared : ds.take k = ts.take k := by
    apply map_name_inj
    rw [List.map_take, List.map_take]
    exact take_commonLength _ _
  refine ⟨ds.take k, ds.drop k, ts.drop k, (List.take_append_drop _ _).symm, ?_,
    cutText_relative_drop hd ht⟩
  rw [hshared, List.take_append_drop]

theorem exists_ups (n : Nat) : ∃ s ss, ups n = s :: ss ∧ (s = "." ∨ s = "..") := by
  cases n with
  | zero => exact ⟨_, _, rfl, .inl rfl⟩
  | succ n => exact ⟨_, _, rfl, .inr rfl⟩

/-- A text whose first piece is not empty is read from the directory. -/
theorem not_anchored_of_cutText {s t : String} {ts : List String} (h : cutText '/' s = t :: ts)
    (ht : t ≠ "") : isAnchored s = false := by
  rw [Bool.eq_false_iff, Ne, isAnchored_iff]
  rintro ⟨u, rfl⟩
  have hcut : cutText '/' ("/" ++ u) = "" :: cutText '/' u := cutText_slash "" u
  rw [hcut] at h
  exact ht (List.cons.inj h).1.symm

theorem Doubled.isAnchored {s : String} (h : Doubled s) : isAnchored s = true := by
  obtain ⟨t, rfl⟩ := h
  exact isAnchored_iff.2 ⟨"/" ++ t, by rw [← String.append_assoc]; rfl⟩

theorem relative_style {dir target : Path} {ds ts : List String} (hd : top.GoesOn dir ds)
    (ht : top.GoesOn target ts) : isAnchored (relative dir target) = false := by
  obtain ⟨cs, xs, ys, -, -, hcut⟩ := cutText_relative hd ht
  obtain ⟨s, ss, hups, hs⟩ := exists_ups xs.length
  rw [hups, List.cons_append] at hcut
  refine not_anchored_of_cutText hcut ?_
  rcases hs with rfl | rfl <;> decide

theorem filterMap_names {ns : List String} (h : ∀ s ∈ ns, IsName s) :
    ns.filterMap componentOf? = ns.map Component.name := by
  induction ns with
  | nil => rfl
  | cons s ns ih =>
    rw [List.filterMap_cons_some (componentOf?_name (h s (List.mem_cons_self ..))),
      ih fun t ht => h t (List.mem_cons_of_mem _ ht), List.map_cons]

/-- A relative specifier leads to the place that it was written for. -/
theorem resolve_relative {dir target root : Path} {ds ts : List String} (hd : top.GoesOn dir ds)
    (ht : top.GoesOn target ts) (hr : root.text ≠ "") :
    (resolve (relative dir target) dir root).same target = true := by
  have hstyle := relative_style hd ht
  have hdoubled : ¬ Doubled (relative dir target) := by
    intro h
    rw [h.isAnchored] at hstyle
    cases hstyle
  obtain ⟨cs, xs, ys, rfl, rfl, hcut⟩ := cutText_relative hd ht
  have hbase : base (relative dir target) dir root = dir := by
    unfold base
    rw [hstyle]
    rfl
  -- the specifier goes up to what is shared, and down from there
  have hinner : Path.inner (relative dir target)
      = List.replicate xs.length .up ++ ys.map Component.name := by
    unfold Path.inner
    rw [hcut, List.filterMap_append, filterMap_ups,
      filterMap_names fun s hs => ht.1 s (List.mem_append_right _ hs)]
  rw [same_iff, components_resolve hd.text_ne_empty hr hdoubled, hbase, hinner,
    normalComponents_append, normalComponents_of_normal hd.normal, settle_append, hd.2,
    settle_ups, settle_names, ht.2, List.append_assoc, ← List.map_append]

/-! ## §3. Anchored specifiers. -/

/-- The anchored specifier of a place in the project is made of the names on the way there. -/
theorem anchored_of_goesOn {root target : Path} {ns : List String} (h : root.GoesOn target ns) :
    anchored root target = "/" ++ joinText '/' ns := by
  unfold anchored below?
  rw [if_pos, h.2, List.drop_left]
  · show "/" ++ joinText '/' (textsOf (ns.map Component.name)) = _
    rw [textsOf_map_name]
  · rw [List.isPrefixOf_iff_prefix, h.2]
    exact List.prefix_append _ _

theorem isAnchored_anchored (root target : Path) : isAnchored (anchored root target) = true :=
  isAnchored_iff.2 ⟨_, rfl⟩

/-- The pieces of an anchored specifier of a place in the project. -/
theorem cutText_names {ns : List String} (h : ∀ s ∈ ns, IsName s) :
    cutText '/' ("/" ++ joinText '/' ns) = "" :: if ns = [] then [""] else ns := by
  have hcut : cutText '/' ("/" ++ joinText '/' ns) = "" :: cutText '/' (joinText '/' ns) :=
    cutText_slash "" _
  rw [hcut]
  by_cases hns : ns = []
  · rw [if_pos hns, hns]
    rfl
  · rw [if_neg hns, cutText_joinText hns fun s hs => (h s hs).2.2.2]

/-- The names of a place in the project do not begin with a slash. -/
theorem not_doubled_of_names {ns : List String} (h : ∀ s ∈ ns, IsName s) :
    ¬ Doubled ("/" ++ joinText '/' ns) := by
  rw [doubled_iff, cutText_names h]
  rintro ⟨p, ps, heq⟩
  have heq := (List.cons.inj heq).2
  split at heq
  · cases heq
  · rw [heq] at h
    exact (h "" (List.mem_cons_self ..)).1 rfl

theorem inner_names {ns : List String} (h : ∀ s ∈ ns, IsName s) :
    Path.inner (joinText '/' ns) = ns.map Component.name := by
  have hplain : ∀ c ∈ ns.map Component.name, Plain c := by
    intro c hc
    obtain ⟨s, hs, rfl⟩ := List.mem_map.1 hc
    exact plain_name (h s hs)
  have := inner_texts hplain
  rwa [show (ns.map Component.name).map Component.text = ns from textsOf_map_name ns] at this

/-- An anchored specifier leads to the place that it was written for. -/
theorem resolve_anchored {target root : Path} (dir : Path) {rs ts : List String}
    (hr : top.GoesOn root rs) (ht : top.GoesOn target ts) (hd : dir.text ≠ "") :
    (resolve (anchored root target) dir root).same target = true := by
  rw [same_iff]
  by_cases hunder : root.components <+: target.components
  · -- the place is in the project
    obtain ⟨ns, hns⟩ : ∃ ns, root.GoesOn target ns := by
      rw [hr.2, ht.2] at hunder
      have hunder := (List.prefix_append_right_inj _).1 hunder
      obtain ⟨ns, rfl⟩ := prefix_of_map_name hunder
      exact ⟨ns, fun s hs => ht.1 s (List.mem_append_right _ hs), by
        rw [ht.2, hr.2, List.map_append, List.append_assoc]⟩
    have hbase : base ("/" ++ joinText '/' ns) dir root = root := if_pos (isAnchored_iff.2 ⟨_, rfl⟩)
    rw [anchored_of_goesOn hns, components_resolve hd hr.text_ne_empty
      (not_doubled_of_names hns.1), hbase, inner_slash, inner_names hns.1, ← hns.2,
      normalComponents_of_normal ht.normal]
  · -- the place is written with its own root
    have hanchored : anchored root target = "/" ++ joinText '/' ("/" :: ts) := by
      unfold anchored below?
      rw [if_neg (by rwa [List.isPrefixOf_iff_prefix]), ht.2]
      show "/" ++ joinText '/' ("/" :: textsOf (ts.map Component.name)) = _
      rw [textsOf_map_name]
    obtain ⟨u, hu, hinner⟩ : ∃ u, joinText '/' ("/" :: ts) = "/" ++ u ∧
        Path.inner u = ts.map Component.name := by
      by_cases hts : ts = []
      · subst hts
        exact ⟨"", rfl, rfl⟩
      · refine ⟨"/" ++ joinText '/' ts, ?_, ?_⟩
        · rw [joinText_cons "/" hts, String.append_assoc]
        · rw [inner_slash, inner_names ht.1]
    have hresolve : resolve ("/" ++ ("/" ++ u)) dir root = Path.normalize ⟨"/" ++ u⟩ := by
      unfold resolve
      rw [afterStart?_eq_some.2 rfl]
      show (root.join ⟨"/" ++ u⟩).normalize = _
      rw [join_of_isAbsolute (isAbsolute_iff.2 ⟨u, rfl⟩)]
    rw [hanchored, hu, hresolve, components_normalize, components_of_slash, hinner, ht.2]
    exact normalComponents_of_normal ⟨[.root], ts, rfl, ht.1, .inl rfl⟩

/-! ## §4. Either style. -/

/-- **A specifier leads to the place that it was written for.** -/
theorem resolve_respecify (former : String) {dir target root : Path} {ds rs ts : List String}
    (hd : top.GoesOn dir ds) (hr : top.GoesOn root rs) (ht : top.GoesOn target ts) :
    (resolve (respecify former dir target root) dir root).same target = true := by
  unfold respecify
  split
  · exact resolve_anchored dir hr ht hd.text_ne_empty
  · exact resolve_relative hd ht hr.text_ne_empty

theorem isAnchored_respecify (former : String) {dir target root : Path} {ds ts : List String}
    (hd : top.GoesOn dir ds) (ht : top.GoesOn target ts) :
    isAnchored (respecify former dir target root) = isAnchored former := by
  unfold respecify
  split
  · rename_i h
    rw [isAnchored_anchored]
    exact h.symm
  · rename_i h
    rw [relative_style hd ht]
    exact (Bool.eq_false_iff.2 h).symm

end Specifier

/-! ## §5. Source extensions. -/

/-- **What is left of a name without its source extension**, and what has been taken away. -/
theorem exists_stripSourceExtension (name : String) (extensions : List String) :
    ∃ rest, name = stripSourceExtension name extensions ++ rest ∧
      (rest = "" ∨ stripSourceExtension name extensions ≠ "" ∧
        ∃ ext ∈ extensions, rest = "." ++ ext) := by
  unfold stripSourceExtension
  cases hf : extensions.findSome? _ with
  | none => exact ⟨"", by simp, .inl rfl⟩
  | some stem =>
    obtain ⟨ext, hext, h⟩ := List.exists_of_findSome?_eq_some hf
    split at h
    · rename_i s hs
      split at h
      · cases h
      · rename_i hne
        cases h
        exact ⟨"." ++ ext, beforeEnd?_eq_some.1 hs, .inr ⟨by simpa using hne, ext, hext, rfl⟩⟩
    · cases h

/-- A name with a source extension is longer than what is left of it. -/
theorem length_stripSourceExtension {stem ext : String} {extensions : List String}
    (hstem : stem ≠ "") (hext : ext ∈ extensions) :
    (stripSourceExtension (stem ++ ("." ++ ext)) extensions).length
      < (stem ++ ("." ++ ext)).length := by
  unfold stripSourceExtension
  cases hf : extensions.findSome? _ with
  | none =>
    have := List.findSome?_eq_none_iff.1 hf ext hext
    rw [beforeEnd?_eq_some.2 rfl] at this
    simp [hstem] at this
  | some s =>
    obtain ⟨e, -, h⟩ := List.exists_of_findSome?_eq_some hf
    split at h
    · rename_i t ht
      split at h
      · cases h
      · cases h
        rw [beforeEnd?_eq_some.1 ht]
        simp only [Option.getD_some, String.length_append]
        have : (".".length) = 1 := rfl
        omega
    · cases h

/-- Two spellings of a path name one module. -/
theorem sameModule_of_same {a b : Path} (h : a.same b = true) (extensions : List String) :
    sameModule a b extensions = true := by
  have hname : a.fileName? = b.fileName? := by
    unfold fileName?
    rw [same_iff.1 h]
  unfold sameModule stripExtension
  rw [hname]
  cases hb : b.fileName? with
  | none => exact h
  | some name =>
    obtain ⟨cs, hcs⟩ := fileName?_eq_some_iff.1 hb
    have hcs' := (same_iff.1 h).trans hcs
    obtain ⟨q, hq, hqs⟩ := parent?_eq_some hcs (by simp)
    obtain ⟨q', hq', hqs'⟩ := parent?_eq_some hcs' (by simp)
    have hslash : '/' ∉ (stripSourceExtension name extensions).toList := by
      obtain ⟨rest, hrest, -⟩ := exists_stripSourceExtension name extensions
      intro hmem
      have := (isName_of_fileName? hb).2.2.2
      rw [hrest, String.toList_append] at this
      exact this (List.mem_append_left _ hmem)
    simp only
    split
    · exact h
    · -- the two directories have one spelling, or are not empty
      unfold withFileName
      rw [hname, hb, hq, hq']
      simp only
      rw [same_iff]
      by_cases hempty : q.text = ""
      · have hempty' : q'.text = "" := by
          rw [← components_eq_nil_iff, hqs', ← hqs, components_eq_nil_iff]
          exact hempty
        obtain rfl : q' = q := by
          obtain ⟨t⟩ := q
          obtain ⟨u⟩ := q'
          exact congrArg Path.mk (hempty'.trans hempty.symm)
        rfl
      · have hempty' : ¬ q'.text = "" := by
          rw [← components_eq_nil_iff, hqs', ← hqs, components_eq_nil_iff]
          exact hempty
        rw [components_join hempty (isAbsolute_of_slash_not_mem hslash),
          components_join hempty' (isAbsolute_of_slash_not_mem hslash), hqs, hqs']

end ModuleMove
