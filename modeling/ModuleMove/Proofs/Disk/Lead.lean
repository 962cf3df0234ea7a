import ModuleMove.Proofs.Disk.Straight

/-!
# LEADING PATHS — where components lead while directories are kept

A path that makes detours leads through directories, and as long as these are kept it leads to the
same place.  So the place that a path names can be told in advance, also where directories on the
way to it are still to be made: what is read of the path before them is there already, and only
names follow.

Main statements:
  * `Keeps.leadsTo` — components lead to one place on all disks that keep the directories.
  * `Enters.leadsTo_iff` — where a directory is that may have to be made.
  * `nameAt_of_enters`, `locate_of_enters` — what a name in such a directory names, and what is
    there.
-/

namespace ModuleMove.Disk

open ModuleMove.Path

variable {d e : Disk} {p q : Path} {cs : List Component} {ks ns place G : List String}
  {s t : String}

/-! ## §1. Components that lead to a directory. -/

/-- Components lead, from the root of the tree, to the directory at a place. -/
def LeadsTo (d : Disk) (cs : List Component) (place : List String) : Prop :=
  ∃ es, follow d.top [] d.top (cs.filterMap stepOf?) = .ok (place, .directory es)

theorem text_ne_empty_of_isAbsolute (hp : p.isAbsolute = true) : p.text ≠ "" := by
  obtain ⟨cs, hcs⟩ := isAbsolute_iff_components.1 hp
  intro h0
  rw [components_eq_nil_iff.2 h0] at hcs
  cases hcs

theorem startOf_of_isAbsolute (hp : p.isAbsolute = true) : d.startOf p = [] := by
  unfold startOf
  rw [if_pos hp]

/-- The components of a path to a directory lead there. -/
theorem leadsTo_of_locate {es : List (String × Node)} (hp : p.isAbsolute = true)
    (h : d.locate p = .ok (place, .directory es)) : d.LeadsTo p.components place := by
  obtain ⟨-, n, hn, hf⟩ := locate_eq_ok h
  rw [startOf_of_isAbsolute hp] at hn hf
  obtain rfl := Option.some.inj hn
  have hf := follow_filter hf
  rw [filter_stepsOf] at hf
  exact ⟨es, hf⟩

/-- On the way to a directory there are directories. -/
theorem LeadsTo.of_append {ds : List Component} (h : d.LeadsTo (cs ++ ds) place) :
    ∃ ks, d.LeadsTo cs ks := by
  obtain ⟨es, hes⟩ := h
  rw [List.filterMap_append, follow_append] at hes
  cases hf : follow d.top [] d.top (cs.filterMap stepOf?) with
  | error t =>
    rw [hf] at hes
    cases hes
  | ok r =>
    obtain ⟨ks, m⟩ := r
    rw [hf] at hes
    cases m with
    | directory ds' => exact ⟨ks, ds', hf⟩
    | file c =>
      -- no step leads on from a file, and it is no directory itself
      exfalso
      change follow d.top ks (.file c) (ds.filterMap stepOf?) = _ at hes
      cases hds : ds.filterMap stepOf? with
      | nil =>
        rw [hds] at hes
        cases hes
      | cons t ts =>
        rw [hds] at hes
        cases hes

/-- Names lead on from a directory to the place below it. -/
theorem LeadsTo.names_iff (h : d.LeadsTo cs ks) (hns : ∀ s ∈ ns, IsName s) :
    d.LeadsTo (cs ++ ns.map Component.name) place ↔
      place = ks ++ ns ∧ d.top.look? (ks ++ ns) = some none := by
  obtain ⟨es, hes⟩ := h
  have hfind := find?_of_follow (n := d.top) rfl hes
  have hsteps : (ns.map Component.name).filterMap stepOf? = ns := by
    rw [List.filterMap_map]
    exact List.filterMap_some
  have hfollow : follow d.top [] d.top ((cs ++ ns.map Component.name).filterMap stepOf?)
      = follow d.top ks (.directory es) ns := by
    rw [List.filterMap_append, hsteps, follow_append, hes]
    rfl
  unfold LeadsTo
  simp only [hfollow, follow_names hns, Node.look?_eq_directory, Node.find?_append, hfind,
    Option.bind_some]
  exact exists_and_left

/-! ## §2. Kept directories. -/

/-- The directories of a disk are directories on another one as well. -/
structure Keeps (d e : Disk) : Prop where
  /-- The other disk has a tree. -/
  rooted : e.Rooted
  /-- It has the directories. -/
  directory : ∀ ks, d.top.look? ks = some none → e.top.look? ks = some none

theorem Rooted.keeps (hd : d.Rooted) : d.Keeps d := ⟨hd, fun _ h => h⟩

theorem Keeps.trans {f : Disk} (h : d.Keeps e) (h' : e.Keeps f) : d.Keeps f :=
  ⟨h'.rooted, fun ks hks => h'.directory ks (h.directory ks hks)⟩

/-- Steps through directories lead to the same place as long as these are kept. -/
theorem Keeps.follow (h : d.Keeps e) {n : Node} {es : List (String × Node)} {ss : List String}
    (hn : d.top.find? ks = some n) (hf : follow d.top ks n ss = .ok (place, .directory es)) :
    ∃ m ds, e.top.find? ks = some m ∧ follow e.top ks m ss = .ok (place, .directory ds) := by
  induction ss generalizing ks n with
  | nil =>
    cases hf
    obtain ⟨ds, hds⟩ := Node.look?_eq_directory.1
      (h.directory _ (Node.look?_eq_directory.2 ⟨es, hn⟩))
    exact ⟨_, ds, hds, rfl⟩
  | cons s ss ih =>
    cases n with
    | file c => cases hf
    | directory ds =>
      obtain ⟨ds', hds'⟩ := Node.look?_eq_directory.1
        (h.directory _ (Node.look?_eq_directory.2 ⟨ds, hn⟩))
      -- each step is taken from a directory, and leads where it led before
      rw [follow_cons, follow_step hn] at hf
      cases hk : d.top.find? (stepPlace ks s) with
      | none =>
        rw [hk] at hf
        cases hf
      | some k =>
        rw [hk] at hf
        obtain ⟨m, es', hm, hf'⟩ := ih hk hf
        refine ⟨_, es', hds', ?_⟩
        rw [follow_cons, follow_step hds', hm]
        exact hf'

/-- **Components that lead to a directory lead there as long as directories are kept.** -/
theorem Keeps.leadsTo (h : d.Keeps e) (hcs : d.LeadsTo cs place) : e.LeadsTo cs place := by
  obtain ⟨es, hes⟩ := hcs
  obtain ⟨m, ds, hm, hf⟩ := h.follow (n := d.top) rfl hes
  obtain rfl := Option.some.inj hm
  exact ⟨ds, hf⟩

/-! ## §3. Directories that may have to be made. -/

/-- A path leads to a directory and goes on from there by names alone; the place that it names in
    this way is known, whether it is there or not. -/
structure Enters (d : Disk) (q : Path) (place : List String) : Prop where
  /-- The path begins at the root of the tree. -/
  isAbsolute : q.isAbsolute = true
  /-- What is there of the way, and the names behind it. -/
  way : ∃ cs ks ns, q.components = cs ++ ns.map Component.name ∧ d.LeadsTo cs ks ∧
    (∀ s ∈ ns, IsName s) ∧ place = ks ++ ns

theorem enters_of_locate {es : List (String × Node)} (hq : q.isAbsolute = true)
    (h : d.locate q = .ok (place, .directory es)) : d.Enters q place :=
  ⟨hq, q.components, place, [], by simp, leadsTo_of_locate hq h, by simp, by simp⟩

theorem enters_of_straight (hd : d.Rooted) (hq : q.Straight ns) : d.Enters q ns := by
  obtain ⟨es, hes⟩ := hd.top
  refine ⟨hq.isAbsolute, [.root], [], ns, hq.components, ⟨es, ?_⟩, hq.1, rfl⟩
  rw [hes]
  rfl

/-- **Where a directory is that may have to be made.** -/
theorem Enters.leadsTo_iff (h : d.Enters q G) (he : d.Keeps e) :
    e.LeadsTo q.components place ↔ place = G ∧ e.top.look? G = some none := by
  obtain ⟨-, cs, ks, ns, hq, hcs, hns, rfl⟩ := h
  rw [hq, (he.leadsTo hcs).names_iff hns]

/-! ## §4. Names in directories. -/

/-- Steps that stay where they are change nothing before a step that does not. -/
theorem follow_of_filter {top n : Node} {ss : List String} {r : List String × Node}
    (hs : moves s = true)
    (h : follow top place n ((ss ++ [s]).filter moves) = .ok r) :
    follow top place n (ss ++ [s]) = .ok r := by
  induction ss generalizing place n with
  | nil =>
    rw [List.nil_append] at h ⊢
    rwa [List.filter_cons_of_pos hs] at h
  | cons a ss ih =>
    cases n with
    | file c =>
      -- there is a step to be taken, and a file cannot be left
      have hmem : s ∈ (a :: ss ++ [s]).filter moves := List.mem_filter.2 ⟨by simp, hs⟩
      cases hl : (a :: ss ++ [s]).filter moves with
      | nil =>
        rw [hl] at hmem
        cases hmem
      | cons b bs =>
        rw [hl] at h
        cases h
    | directory es =>
      rw [List.cons_append] at h ⊢
      rw [follow_cons]
      cases ha : moves a with
      | false =>
        rw [List.filter_cons_of_neg (by rw [ha]; decide)] at h
        rw [follow_still ha]
        exact ih h
      | true =>
        rw [List.filter_cons_of_pos ha, follow_cons] at h
        cases hf : follow top place (.directory es) [a] with
        | error t => rw [hf] at h; cases h
        | ok q => rw [hf] at h; exact ih h

/-- The steps of an absolute path whose last piece is not empty. -/
theorem exists_steps {as : List String} (hp : p.isAbsolute = true)
    (hcut : cutText '/' p.text = as ++ [t]) (ht : t ≠ "") :
    ∃ ss, stepsOf p = ss ++ [t] ∧ bareSteps p = ss ++ [t] := by
  obtain ⟨u, hu⟩ := isAbsolute_iff.1 hp
  have hroot : cutText '/' p.text = "" :: cutText '/' u := by
    have := cutText_slash "" u
    rw [String.empty_append, ← hu] at this
    exact this
  have hsteps : stepsOf p = cutText '/' u := by
    rw [stepsOf_of_cut hroot, if_pos rfl]
  rw [hroot] at hcut
  -- the piece before the first slash is empty, so that the last one is another
  obtain ⟨ss, hss⟩ : ∃ ss, cutText '/' u = ss ++ [t] := by
    cases as with
    | nil => exact absurd (List.cons.inj hcut).1.symm ht
    | cons a as => exact ⟨as, (List.cons.inj hcut).2⟩
  refine ⟨ss, hsteps.trans hss, ?_⟩
  unfold bareSteps
  rw [hsteps, hss, List.reverse_append, List.reverse_singleton, List.singleton_append,
    List.dropWhile_cons_of_neg (by simpa using ht), List.reverse_cons, List.reverse_reverse]

/-- A path behind whose last slash there is something names nothing else, and `.` and `..` name
    nothing in a directory. -/
theorem isName_of_nameAt {as : List String} {b : String} (hp : p.isAbsolute = true)
    (hcut : cutText '/' p.text = as ++ [t]) (ht : t ≠ "")
    (h : e.nameAt p = .ok (place, some b)) : b = t ∧ IsName t ∧
      ∃ ss es, stepsOf p = ss ++ [t] ∧
        follow e.top [] e.top ss = .ok (place, .directory es) := by
  obtain ⟨ss, hsteps, hbare⟩ := exists_steps hp hcut ht
  have hslash : '/' ∉ t.toList :=
    not_mem_of_mem_cutText (s := p.text) (by rw [hcut]; simp)
  unfold nameAt at h
  split at h
  · cases h
  simp only [hbare, List.dropLast_concat, List.getLast?_concat, Option.bind_some, followFrom,
    startOf_of_isAbsolute hp] at h
  have htop : e.top.find? [] = some e.top := rfl
  cases hf : follow e.top [] e.top ss with
  | error x =>
    simp only [htop, hf] at h
    cases h
  | ok r =>
    obtain ⟨pl, n⟩ := r
    simp only [htop, hf] at h
    cases n with
    | file c => cases h
    | directory es =>
      obtain ⟨rfl, hb⟩ := Prod.mk.inj (Except.ok.inj h)
      split at hb
      · cases hb
      · rename_i hdots
        simp only [Bool.or_eq_true, beq_iff_eq, not_or] at hdots
        obtain rfl := Option.some.inj hb
        exact ⟨rfl, ⟨ht, hdots.1, hdots.2, hslash⟩, ss, es, hsteps, hf⟩

/-- The steps before the last one are those of the components before the last one. -/
theorem filter_of_steps {ss : List String} (ht : IsName t)
    (hc : p.components = cs ++ [.name t]) (hsteps : stepsOf p = ss ++ [t]) :
    ss.filter moves = cs.filterMap stepOf? := by
  have hmoves : moves t = true := by
    unfold moves
    simp [ht.1, ht.2.1]
  have heq := filter_stepsOf p
  rw [hsteps, hc, List.filter_append, List.filterMap_append,
    List.filter_cons_of_pos hmoves] at heq
  have heq : ss.filter moves ++ [t] = cs.filterMap stepOf? ++ [t] := heq
  exact List.append_cancel_right heq

/-- **The place of a name in a directory that may have to be made.** -/
theorem nameAt_of_enters {as : List String} {b : String} (h : d.Enters q G) (he : d.Keeps e)
    (hp : p.isAbsolute = true) (hcut : cutText '/' p.text = as ++ [t])
    (hc : p.components = q.components ++ [.name t]) (ht : IsName t)
    (hn : e.nameAt p = .ok (place, some b)) : place = G ∧ b = t := by
  obtain ⟨rfl, -, ss, es, hsteps, hf⟩ := isName_of_nameAt hp hcut ht.1 hn
  have hf := follow_filter hf
  rw [filter_of_steps ht hc hsteps] at hf
  exact ⟨((h.leadsTo_iff he).1 ⟨es, hf⟩).1, rfl⟩

/-- **What is found under a name in a directory that has been made.** -/
theorem locate_of_enters {as : List String} {n : Node} (h : d.Enters q G) (he : d.Keeps e)
    (hp : p.isAbsolute = true) (hcut : cutText '/' p.text = as ++ [t])
    (hc : p.components = q.components ++ [.name t]) (ht : IsName t)
    (hfind : e.top.find? (G ++ [t]) = some n) : e.locate p = .ok (G ++ [t], n) := by
  obtain ⟨ss, hsteps, -⟩ := exists_steps hp hcut ht.1
  have hmoves : moves t = true := by
    unfold moves
    simp [ht.1, ht.2.1]
  -- something is in the directory, so it is there
  have hdir : e.top.look? G = some none := by
    have hthere : e.top.look? (G ++ t :: []) ≠ none := by
      rw [Ne, Node.look?_eq_none, hfind]
      simp
    exact look?_of_append hthere
  obtain ⟨es, hes⟩ := (h.leadsTo_iff he).2 ⟨rfl, hdir⟩
  have hfollow : follow e.top [] e.top (stepsOf p) = .ok (G ++ [t], n) := by
    rw [hsteps]
    refine follow_of_filter hmoves ?_
    rw [List.filter_append, filter_of_steps ht hc hsteps, follow_append, hes,
      List.filter_cons_of_pos hmoves]
    refine (follow_names (by simpa using ht)).2 ⟨rfl, ?_⟩
    have hfound := find?_of_follow (n := e.top) rfl hes
    rw [Node.find?_append, hfound] at hfind
    exact hfind
  have htext : p.text.isEmpty = false := by
    rw [Bool.eq_false_iff, Ne, String.isEmpty_iff]
    exact text_ne_empty_of_isAbsolute hp
  unfold locate followFrom
  rw [htext, if_neg (by decide), startOf_of_isAbsolute hp]
  exact hfollow

end ModuleMove.Disk
