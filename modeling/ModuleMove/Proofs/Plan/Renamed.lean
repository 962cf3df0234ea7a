import ModuleMove.Proofs.Disk.Lead
import ModuleMove.Proofs.Plan.Renaming

/-!
# MADE RENAMES — what has become of the files once renames have been made

A rename first makes the directories on the way to the new place, and then takes the place of what
is there.  From renames that have succeeded it is told what they have done: where nothing was at the
new places, each file is at its new place, and all others are where they were.  Nothing is assumed
of how the paths are spelled.

Main statements:
  * `widened_of_makeDirectories` — where directories have been made, files are as they were.
  * `rename_eq_ok` — what has been found out when a rename has been made.
  * `replaced_of_renameInto` — what one rename has done.
  * `fileAt_of_renameEach` — what the renames of files in one directory have done.
-/

namespace ModuleMove.Disk

open ModuleMove.Path

variable {d e e' : Disk} {p q : Path} {ks source goal : List String}

/-! ## §1. Made directories. -/

/-- Directories may have been made, and nothing else has been done. -/
structure Widened (d e : Disk) : Prop where
  /-- All directories are kept. -/
  keeps : d.Keeps e
  /-- All files are as they were. -/
  files : ∀ ks, e.fileAt ks = d.fileAt ks

theorem Rooted.widened (hd : d.Rooted) : d.Widened d := ⟨hd.keeps, fun _ => rfl⟩

theorem Widened.trans (h : d.Widened e) (h' : e.Widened e') : d.Widened e' :=
  ⟨h.keeps.trans h'.keeps, fun ks => (h'.files ks).trans (h.files ks)⟩

/-- What a path names is a name in a directory. -/
theorem nameAt_eq_ok {b : String} (h : d.nameAt p = .ok (ks, some b)) :
    d.top.look? ks = some none ∧ IsName b := by
  unfold nameAt at h
  split at h
  · cases h
  simp only at h
  split at h
  · cases h
  · cases h
  · rename_i place es hf
    obtain ⟨rfl, hb⟩ := Prod.mk.inj (Except.ok.inj h)
    refine ⟨?_, ?_⟩
    · unfold followFrom at hf
      split at hf
      · rename_i n hn
        exact Node.look?_eq_directory.2 ⟨es, find?_of_follow hn hf⟩
      · cases hf
    · obtain ⟨s, hs, hdots⟩ := Option.bind_eq_some_iff.1 hb
      split at hdots
      · cases hdots
      rename_i hne
      obtain rfl := Option.some.inj hdots
      simp only [Bool.or_eq_true, beq_iff_eq, not_or] at hne
      -- the last of the bare steps is not empty, and no piece between slashes has one
      unfold bareSteps at hs
      rw [List.getLast?_reverse] at hs
      refine ⟨?_, hne.1, hne.2, ?_⟩
      · have hlast := List.head?_dropWhile_not (fun x => x == "") (stepsOf p).reverse
        rw [hs] at hlast
        simpa using hlast
      · have hmem : s ∈ stepsOf p :=
          List.mem_reverse.1 ((List.dropWhile_suffix _).subset (List.mem_of_head? hs))
        refine not_mem_of_mem_cutText (s := p.text) ?_
        unfold stepsOf at hmem
        split at hmem
        · rename_i hcut
          rw [hcut]
          exact List.mem_cons_of_mem _ hmem
        · exact hmem

theorem widened_of_makeDirectory (hd : d.Rooted) (h : d.makeDirectory p = .ok e) :
    d.Widened e := by
  unfold makeDirectory at h
  split at h
  · cases h
  · cases h
  · rename_i ns b hname
    obtain ⟨hdir, hb⟩ := nameAt_eq_ok hname
    split at h
    · cases h
    · rename_i hfree
      obtain rfl := Except.ok.inj h
      have hx : ∀ m ∈ some (Node.directory []), m.WellFormed := by
        rintro m ⟨⟩
        rw [Node.WellFormed]
        exact ⟨List.nodup_nil, trivial⟩
      obtain ⟨hrooted, hbelow, haside⟩ := look?_alter hd hdir hb hx
      have hnone : ∀ rest, d.top.look? (ns ++ [b] ++ rest) = none := by
        intro rest
        have hfree : d.top.find? (ns ++ [b]) = none := hfree
        rw [Node.look?_eq_none, Node.find?_append, hfree]
        rfl
      refine ⟨⟨hrooted.remember (.made p), fun ks hks => ?_⟩, fun ks => ?_⟩
      · by_cases hle : ns ++ [b] <+: ks
        · obtain ⟨rest, rfl⟩ := hle
          rw [hnone] at hks
          cases hks
        · exact (haside ks hle).trans hks
      · unfold fileAt
        by_cases hle : ns ++ [b] <+: ks
        · -- where nothing was there is an empty directory, and no file in it
          obtain ⟨rest, rfl⟩ := hle
          rw [hnone]
          show ((d.alter (ns ++ [b]) _).top.look? _).join = _
          rw [hbelow]
          cases rest with
          | nil => rfl
          | cons k rest => rfl
        · exact congrArg Option.join (haside ks hle)

theorem widened_of_haveDirectory (hd : d.Rooted) (h : d.haveDirectory p = .ok e) :
    d.Widened e := by
  unfold haveDirectory at h
  split at h
  · rename_i hmake
    obtain rfl := Except.ok.inj h
    exact widened_of_makeDirectory hd hmake
  · split at h
    · obtain rfl := Except.ok.inj h
      exact hd.widened
    · cases h

theorem widened_of_haveDirectories {fuel : Nat} (hd : d.Rooted)
    (h : haveDirectories fuel d p = .ok e) : d.Widened e := by
  induction fuel generalizing p e with
  | zero => exact widened_of_haveDirectory hd h
  | succ fuel ih =>
    unfold haveDirectories at h
    split at h
    · obtain rfl := Except.ok.inj h
      exact hd.widened
    · split at h
      · rename_i hmake
        obtain rfl := Except.ok.inj h
        exact widened_of_makeDirectory hd hmake
      · split at h
        · cases h
        · rename_i q hq
          -- the directories above come first, and then the one itself
          cases hup : haveDirectories fuel d q with
          | error t =>
            rw [hup] at h
            cases h
          | ok d' =>
            rw [hup] at h
            have hwide := ih hup
            exact hwide.trans (widened_of_haveDirectory hwide.keeps.rooted h)
      · split at h
        · obtain rfl := Except.ok.inj h
          exact hd.widened
        · cases h

/-- **Where directories have been made, nothing else has been done.** -/
theorem widened_of_makeDirectories (hd : d.Rooted) (h : d.makeDirectories p = .ok e) :
    d.Widened e :=
  widened_of_haveDirectories hd h

/-! ## §2. One rename. -/

/-- What one rename does to the files: all that were at the old place are at the new one. -/
structure Replaced (d e : Disk) (source goal : List String) : Prop where
  /-- The disk has a tree. -/
  rooted : e.Rooted
  /-- What lay at the old place, or below it, is at the new one. -/
  arrived : ∀ rest, e.fileAt (goal ++ rest) = d.fileAt (source ++ rest)
  /-- Nothing is left at the old place. -/
  left : ∀ rest, e.fileAt (source ++ rest) = none
  /-- Everything else is as it was. -/
  kept : ∀ ks, ¬ source <+: ks → ¬ goal <+: ks → e.fileAt ks = d.fileAt ks

/-- What has been found out when a rename has been made: it changes nothing if both places are one,
    and otherwise neither lies in the other, and nothing at the new one is in the way. -/
theorem rename_eq_ok (h : d.rename p q = .ok e) : ∃ ns a ms b n,
    d.nameAt p = .ok (ns, some a) ∧ d.nameAt q = .ok (ms, some b) ∧
      d.top.find? (ns ++ [a]) = some n ∧
      (ns ++ [a] = ms ++ [b] ∧ e = d ∨
        (¬ ns ++ [a] <+: ms ++ [b] ∧ ¬ ms ++ [b] <+: ns ++ [a]) ∧
          replaceTrouble n (d.top.find? (ms ++ [b])) = none ∧
          e = ((d.alter (ns ++ [a]) fun _ => none).alter (ms ++ [b]) fun _ => some n).remember
            (.renamed p q)) := by
  unfold rename at h
  obtain ⟨⟨ns, oa⟩, hp, hstep⟩ := exists_of_bind_eq_ok h
  obtain ⟨⟨ms, ob⟩, hq, h⟩ := exists_of_bind_eq_ok hstep
  rw [hp, hq]
  simp only at h
  split at h
  · rename_i _ _ a b
    split at h
    · cases h
    · rename_i n hn
      refine ⟨ns, a, ms, b, n, rfl, rfl, hn, ?_⟩
      split at h
      · cases h
      split at h
      · exact .inl ⟨beq_iff_eq.1 ‹_›, (Except.ok.inj h).symm⟩
      split at h
      · cases h
      rename_i hinto
      split at h
      · cases h
      rename_i hback
      rw [List.isPrefixOf_iff_prefix] at hinto hback
      split at h
      · cases h
      · exact .inr ⟨⟨hinto, hback⟩, ‹_›, (Except.ok.inj h).symm⟩
  · cases h

/-- What is seen after a rename that has been made between two places. -/
theorem look?_of_rename (hd : d.Rooted) (h : d.rename p q = .ok e) : ∃ ns a ms b,
    d.nameAt p = .ok (ns, some a) ∧ d.nameAt q = .ok (ms, some b) ∧
      (ns ++ [a] = ms ++ [b] ∧ e = d ∨
        (∃ n, d.top.find? (ns ++ [a]) = some n ∧
          replaceTrouble n (d.top.find? (ms ++ [b])) = none) ∧ e.Rooted ∧
        (∀ rest, e.top.look? (ms ++ [b] ++ rest) = d.top.look? (ns ++ [a] ++ rest)) ∧
        (∀ rest, e.top.look? (ns ++ [a] ++ rest) = none) ∧
        ∀ ks, ¬ ns ++ [a] <+: ks → ¬ ms ++ [b] <+: ks → e.top.look? ks = d.top.look? ks) := by
  obtain ⟨ns, a, ms, b, n, hp, hq, hn, hor⟩ := rename_eq_ok h
  refine ⟨ns, a, ms, b, hp, hq, hor.imp_right ?_⟩
  rintro ⟨⟨hinto, hback⟩, htrouble, rfl⟩
  obtain ⟨hdir, ha⟩ := nameAt_eq_ok hp
  obtain ⟨hdir', hb⟩ := nameAt_eq_ok hq
  -- the old place is left, and then the new one is taken
  obtain ⟨hrooted, hbelow, haside⟩ := look?_alter (x := none) hd hdir ha (by simp)
  have hdir₁ := (haside ms fun hle => hinto (hle.trans (List.prefix_append ..))).trans hdir'
  obtain ⟨hrooted', hbelow', haside'⟩ :=
    look?_alter (x := some n) hrooted hdir₁ hb (by rintro m ⟨⟩; exact hd.tree.find? hn)
  refine ⟨⟨n, hn, htrouble⟩, hrooted'.remember (.renamed p q), fun rest => ?_,
    fun rest => ?_, fun ks hks hgoal => (haside' ks hgoal).trans (haside ks hks)⟩
  · refine (hbelow' rest).trans ?_
    rw [Node.look?, Node.find?_append, hn]
    rfl
  · refine (haside' _ fun hle => ?_).trans (hbelow rest)
    rcases List.prefix_or_prefix_of_prefix hle
      (List.prefix_append (ns ++ [a]) rest) with hle | hle
    · exact hback hle
    · exact hinto hle

/-- Nothing lies below a file. -/
theorem fileAt_below {c : Content} (h : d.fileAt ks = some c) (k : String) (rest : List String) :
    d.fileAt (ks ++ k :: rest) = none := by
  rw [fileAt_eq_some] at h
  unfold fileAt
  by_contra hne
  have hsome : d.top.look? (ks ++ k :: rest) ≠ none := by
    intro hnone
    rw [hnone] at hne
    exact hne rfl
  rw [look?_of_append hsome] at h
  cases h

/-- A rename of a file keeps all directories. -/
theorem keeps_of_rename {c : Content} {ns ms : List String} {a b : String} {n : Node}
    (hn : d.top.find? (ns ++ [a]) = some n) (hfile : d.fileAt (ns ++ [a]) = some c)
    (htrouble : replaceTrouble n (d.top.find? (ms ++ [b])) = none) (he : e.Rooted)
    (hkept : ∀ ks, ¬ ns ++ [a] <+: ks → ¬ ms ++ [b] <+: ks → e.top.look? ks = d.top.look? ks) :
    d.Keeps e := by
  rw [fileAt_eq_some] at hfile
  have hsource : n = .file c := by
    rw [Node.look?_eq_file, hn] at hfile
    exact Option.some.inj hfile
  -- what is seen at a place below which a directory is seen is one itself
  have habove : ∀ {ks rest : List String}, d.top.look? (ks ++ rest) = some none →
      d.top.look? ks = some none := by
    intro ks rest h
    cases rest with
    | nil => rwa [List.append_nil] at h
    | cons k rest => exact look?_of_append (by rw [h]; simp)
  refine ⟨he, fun ks hks => ?_⟩
  rw [hkept ks ?_ ?_, hks]
  · rintro ⟨rest, rfl⟩
    rw [habove hks] at hfile
    cases hfile
  · -- no directory gives its place to a file
    rintro ⟨rest, rfl⟩
    obtain ⟨es, hes⟩ := Node.look?_eq_directory.1 (habove hks)
    rw [hes, hsource] at htrouble
    cases htrouble

/-- **What one rename has done.** -/
theorem replaced_of_renameInto (hd : d.Rooted) (h : renameInto d p q = (.ok (), e)) :
    ∃ d₁ ns a ms b, d.Widened d₁ ∧ d₁.nameAt p = .ok (ns, some a) ∧
      d₁.nameAt q = .ok (ms, some b) ∧
      ((∀ rest, d.fileAt (ms ++ [b] ++ rest) = none) → d.Replaced e (ns ++ [a]) (ms ++ [b])) ∧
      ((∃ c, d.fileAt (ns ++ [a]) = some c) → d.Keeps e) := by
  unfold renameInto at h
  split at h
  · cases h
  · rename_i d₁ hmake
    have hwide : d.Widened d₁ := by
      cases hq : q.parent? with
      | none =>
        rw [hq] at hmake
        obtain rfl := Except.ok.inj hmake
        exact hd.widened
      | some r =>
        rw [hq] at hmake
        exact widened_of_makeDirectories hd hmake
    split at h
    · cases h
    · rename_i e₁ hrename
      obtain rfl := (Prod.mk.inj h).2
      obtain ⟨ns, a, ms, b, hp, hq, hor⟩ := look?_of_rename hwide.keeps.rooted hrename
      refine ⟨d₁, ns, a, ms, b, hwide, hp, hq, fun hfree => ?_, fun hfile => ?_⟩
      · rcases hor with ⟨heq, rfl⟩ | ⟨-, hrooted, harrived, hleft, hkept⟩
        · -- nothing was at the new place, and so nothing was renamed
          rw [heq]
          refine ⟨hwide.keeps.rooted, fun rest => hwide.files _, fun rest => ?_,
            fun ks _ _ => hwide.files ks⟩
          rw [hwide.files, hfree]
        · refine ⟨hrooted, fun rest => ?_, fun rest => ?_, fun ks hks hgoal => ?_⟩
          · rw [← hwide.files]
            exact congrArg Option.join (harrived rest)
          · exact congrArg Option.join (hleft rest)
          · rw [← hwide.files]
            exact congrArg Option.join (hkept ks hks hgoal)
      · rcases hor with ⟨-, rfl⟩ | ⟨⟨n, hn, htrouble⟩, hrooted, -, -, hkept⟩
        · exact hwide.keeps
        · obtain ⟨c, hc⟩ := hfile
          rw [← hwide.files] at hc
          exact hwide.keeps.trans (keeps_of_rename hn hc htrouble hrooted hkept)

/-- What has become of all files when one of them was renamed to a place where nothing was. -/
theorem Replaced.fileAt_eq {c : Content} (h : d.Replaced e source goal)
    (hfile : d.fileAt source = some c) (hfree : ∀ rest, d.fileAt (goal ++ rest) = none)
    (ks : List String) :
    e.fileAt ks = if ks = goal then some c else if ks = source then none else d.fileAt ks := by
  by_cases hgoal : goal <+: ks
  · obtain ⟨rest, rfl⟩ := hgoal
    rw [h.arrived]
    cases rest with
    | nil => rw [List.append_nil, if_pos (List.append_nil _), hfile]
    | cons k rest =>
      have hne : goal ++ k :: rest ≠ goal := by simp
      rw [fileAt_below hfile, if_neg hne, hfree]
      split <;> rfl
  · have hne : ks ≠ goal := fun heq => hgoal (by rw [heq])
    rw [if_neg hne]
    by_cases hsource : source <+: ks
    · obtain ⟨rest, rfl⟩ := hsource
      rw [h.left]
      cases rest with
      | nil => rw [if_pos (List.append_nil _)]
      | cons k rest => rw [if_neg (by simp), fileAt_below hfile]
    · rw [if_neg fun heq => hsource (by rw [heq]), h.kept ks hsource hgoal]

/-! ## §3. Renames of files. -/

/-- The renames of files of the directory `q`, given by their names, to new names in `r`. -/
def renamesOf (q r : Path) (xs : List (String × String)) : List (Path × Path) :=
  xs.map fun x => (q.join ⟨x.1⟩, r.join ⟨x.2⟩)

theorem exists_renamesOf_eq {q r : Path} {P : String × String → Prop} {ms : List (Path × Path)}
    (h : ∀ m ∈ ms, ∃ x, P x ∧ m = (q.join ⟨x.1⟩, r.join ⟨x.2⟩)) :
    ∃ xs, ms = renamesOf q r xs ∧ ∀ x ∈ xs, P x := by
  induction ms with
  | nil => exact ⟨[], rfl, by simp⟩
  | cons m ms ih =>
    obtain ⟨xs, rfl, hxs⟩ := ih fun k hk => h k (List.mem_cons_of_mem _ hk)
    obtain ⟨x, hx, rfl⟩ := h m (List.mem_cons_self ..)
    exact ⟨x :: xs, rfl, List.forall_mem_cons.2 ⟨hx, hxs⟩⟩

/-- A text without slashes is put behind a path as its last piece. -/
theorem exists_cutText_join (q : Path) {t : String} (ht : '/' ∉ t.toList) :
    ∃ as, cutText '/' (q.join ⟨t⟩).text = as ++ [t] := by
  unfold Path.join
  rw [isAbsolute_of_slash_not_mem ht, if_neg (by decide)]
  split
  · rename_i hor
    rw [Bool.or_eq_true, String.isEmpty_iff, beq_iff_eq] at hor
    rcases hor with h0 | hlast
    · refine ⟨[], ?_⟩
      show ModuleMove.cutText '/' (q.text ++ t) = _
      rw [h0, String.empty_append]
      exact cutText_of_not_mem ht
    · -- the path ends with a slash already
      obtain ⟨cs, hcs⟩ := List.getLast?_eq_some_iff.1 hlast
      have htext : q.text = String.ofList cs ++ "/" := by
        rw [← String.toList_inj, hcs, String.toList_append, String.toList_ofList]
        rfl
      refine ⟨cutText '/' (String.ofList cs), ?_⟩
      show ModuleMove.cutText '/' (q.text ++ t) = _
      rw [htext, cutText_slash, cutText_of_not_mem ht]
  · exact ⟨_, by rw [← cutText_of_not_mem ht]; exact cutText_slash _ _⟩

theorem isAbsolute_join (hq : q.isAbsolute = true) (t : String) :
    (q.join ⟨t⟩).isAbsolute = true := by
  obtain ⟨u, hu⟩ := isAbsolute_iff.1 hq
  unfold Path.join
  split
  · assumption
  · split
    · exact isAbsolute_iff.2 ⟨u ++ t, by rw [hu, String.append_assoc]⟩
    · exact isAbsolute_iff.2 ⟨u ++ "/" ++ t, by rw [hu]; simp only [String.append_assoc]⟩

/-- The place of a name that is put behind the path of a directory. -/
theorem nameAt_join {r : Path} {G place : List String} {t b : String} (h : d.Enters r G)
    (he : d.Keeps e) (h0 : t ≠ "") (ht : '/' ∉ t.toList)
    (hn : e.nameAt (r.join ⟨t⟩) = .ok (place, some b)) : IsName t ∧ place = G ∧ b = t := by
  obtain ⟨as, has⟩ := exists_cutText_join r ht
  have habs := isAbsolute_join h.isAbsolute t
  obtain ⟨-, hname, -⟩ := isName_of_nameAt habs has h0 hn
  exact ⟨hname, nameAt_of_enters h he habs has (components_join_name r hname) hname hn⟩

theorem locate_join {r : Path} {G : List String} {t : String} {n : Node} (h : d.Enters r G)
    (he : d.Keeps e) (ht : IsName t) (hfind : e.top.find? (G ++ [t]) = some n) :
    e.locate (r.join ⟨t⟩) = .ok (G ++ [t], n) := by
  obtain ⟨as, has⟩ := exists_cutText_join r ht.2.2.2
  exact locate_of_enters h he (isAbsolute_join h.isAbsolute t) has (components_join_name r ht) ht
    hfind

section

variable {r : Path} {as G : List String} {x : String × String} {xs : List (String × String)}

/-- Files of one directory, and new names for them in another one: files are there under the old
    names and nothing is there under the new ones. -/
structure Renamable (d : Disk) (as G : List String) (xs : List (String × String)) : Prop where
  /-- A new name is not empty and has no slash in it. -/
  text : ∀ x ∈ xs, x.2 ≠ "" ∧ '/' ∉ x.2.toList
  /-- The files are there. -/
  source : ∀ x ∈ xs, IsName x.1 ∧ ∃ c, d.fileAt (as ++ [x.1]) = some c
  /-- Nothing is there under the new names. -/
  free : ∀ x ∈ xs, IsName x.2 → d.top.look? (G ++ [x.2]) = none
  /-- The files are different ones. -/
  sources : (xs.map Prod.fst).Nodup
  /-- They get different names. -/
  goals : (xs.map Prod.snd).Nodup

theorem Renamable.tail (h : d.Renamable as G (x :: xs)) : d.Renamable as G xs :=
  ⟨fun y hy => h.text y (List.mem_cons_of_mem _ hy),
    fun y hy => h.source y (List.mem_cons_of_mem _ hy),
    fun y hy => h.free y (List.mem_cons_of_mem _ hy), (List.nodup_cons.1 h.sources).2,
    (List.nodup_cons.1 h.goals).2⟩

/-- No file lies at a new place. -/
theorem Renamable.source_ne (h : d.Renamable as G xs) {x y : String × String} (hx : x ∈ xs)
    (hy : y ∈ xs) (hname : IsName y.2) : as ++ [x.1] ≠ G ++ [y.2] := by
  intro heq
  obtain ⟨-, c, hc⟩ := h.source x hx
  rw [fileAt_eq_some, heq, h.free y hy hname] at hc
  cases hc

/-- What the renames that are still to be made find: the files are there as they were, and no file
    is at a new place. -/
structure Awaits (d e : Disk) (as G : List String) (xs : List (String × String)) : Prop where
  /-- All directories are kept. -/
  keeps : d.Keeps e
  /-- The files are as they were. -/
  source : ∀ x ∈ xs, e.fileAt (as ++ [x.1]) = d.fileAt (as ++ [x.1])
  /-- No file is at a new place. -/
  free : ∀ x ∈ xs, IsName x.2 → ∀ rest, e.fileAt (G ++ [x.2] ++ rest) = none

theorem Renamable.awaits (h : d.Renamable as G xs) (hd : d.Rooted) : d.Awaits d as G xs := by
  refine ⟨hd.keeps, fun _ _ => rfl, fun x hx hname rest => ?_⟩
  unfold fileAt
  rw [Node.look?, Node.find?_append, Node.look?_eq_none.1 (h.free x hx hname)]
  rfl

theorem ne_of_map_ne {G : List String} {a b : String} (h : a ≠ b) : G ++ [a] ≠ G ++ [b] :=
  fun heq => h (List.cons.inj (List.append_cancel_left heq)).1

/-- **One rename of a file**, and what the others find after it. -/
theorem Awaits.step (h : d.Renamable as G (x :: xs)) (hq : d.Enters q as) (hr : d.Enters r G)
    (he : d.Awaits e as G (x :: xs))
    (hrename : renameInto e (q.join ⟨x.1⟩) (r.join ⟨x.2⟩) = (.ok (), e')) :
    IsName x.2 ∧ d.Awaits e' as G xs ∧ ∀ ks, e'.fileAt ks =
      if ks = G ++ [x.2] then e.fileAt (as ++ [x.1])
      else if ks = as ++ [x.1] then none else e.fileAt ks := by
  have hx : x ∈ x :: xs := List.mem_cons_self ..
  have htail : ∀ {y}, y ∈ xs → y ∈ x :: xs := fun hy => List.mem_cons_of_mem _ hy
  obtain ⟨h0, hslash⟩ := h.text x hx
  obtain ⟨hname, c, hc⟩ := h.source x hx
  obtain ⟨e₁, ns, a, ms, b, hwide, hn, hm, hreplaced, hkeeps⟩ :=
    replaced_of_renameInto he.keeps.rooted hrename
  -- both paths name the places that are known from the disk before all renames
  have hkept := he.keeps.trans hwide.keeps
  obtain ⟨-, rfl, rfl⟩ := nameAt_join hq hkept hname.1 hname.2.2.2 hn
  obtain ⟨hgoal, rfl, rfl⟩ := nameAt_join hr hkept h0 hslash hm
  have hfile : e.fileAt (ns ++ [x.1]) = some c := (he.source x hx).trans hc
  have hfree := he.free x hx hgoal
  have hreplaced := hreplaced hfree
  have heq := hreplaced.fileAt_eq hfile hfree
  refine ⟨hgoal, ⟨he.keeps.trans (hkeeps ⟨c, hfile⟩), fun y hy => ?_,
    fun y hy hyname rest => ?_⟩, fun ks => by rw [heq, hfile]⟩
  · have hne : y.1 ≠ x.1 := by
      intro hyx
      apply (List.nodup_cons.1 h.sources).1
      rw [← hyx]
      exact List.mem_map_of_mem hy
    rw [heq, if_neg (h.source_ne (htail hy) hx hgoal), if_neg (ne_of_map_ne hne),
      he.source y (htail hy)]
  · have hne : y.2 ≠ x.2 := by
      intro hyx
      apply (List.nodup_cons.1 h.goals).1
      rw [← hyx]
      exact List.mem_map_of_mem hy
    rw [heq, if_neg, he.free y (htail hy) hyname]
    · split <;> rfl
    · -- a place below one new place is not another one
      intro hy
      rw [List.append_assoc] at hy
      exact hne (List.cons.inj (List.append_cancel_left hy)).1

/-- **What the renames of files have done**: each file is at its new place, nothing is at the old
    ones, and all other files are as they were. -/
theorem fileAt_of_renameEach (h : d.Renamable as G xs) (hq : d.Enters q as) (hr : d.Enters r G)
    (he : d.Awaits e as G xs) (hrename : renameEach e (renamesOf q r xs) = (.ok (), e')) :
    d.Keeps e' ∧ (∀ x ∈ xs, IsName x.2 ∧ e'.fileAt (G ++ [x.2]) = e.fileAt (as ++ [x.1])) ∧
      ∀ ks, (∀ x ∈ xs, ks ≠ G ++ [x.2]) →
        ((∃ x ∈ xs, ks = as ++ [x.1]) → e'.fileAt ks = none) ∧
        ((∀ x ∈ xs, ks ≠ as ++ [x.1]) → e'.fileAt ks = e.fileAt ks) := by
  -- by induction on the renames: after each one, the others find what they need
  induction xs generalizing e with
  | nil =>
    obtain rfl := (Prod.mk.inj hrename).2
    refine ⟨he.keeps, by simp, fun ks _ => ⟨?_, fun _ => rfl⟩⟩
    rintro ⟨x, hx, -⟩
    cases hx
  | cons x xs ih =>
    have hx : x ∈ x :: xs := List.mem_cons_self ..
    have htail : ∀ {y}, y ∈ xs → y ∈ x :: xs := fun hy => List.mem_cons_of_mem _ hy
    change renameEach e ((q.join ⟨x.1⟩, r.join ⟨x.2⟩) :: renamesOf q r xs) = _ at hrename
    rw [renameEach] at hrename
    split at hrename
    · cases hrename
    · rename_i e₁ hstep
      obtain ⟨hname, hawaits, heq⟩ := he.step h hq hr hstep
      obtain ⟨hkeeps, harrived, hrest⟩ := ih h.tail hawaits hrename
      obtain ⟨hnew, -⟩ := List.nodup_cons.1 h.goals
      obtain ⟨hold, -⟩ := List.nodup_cons.1 h.sources
      have hgoal : ∀ y ∈ xs, G ++ [x.2] ≠ G ++ [y.2] := fun y hy =>
        ne_of_map_ne fun hxy => hnew (by rw [hxy]; exact List.mem_map_of_mem hy)
      have hsource : ∀ y ∈ xs, as ++ [y.1] ≠ as ++ [x.1] := fun y hy =>
        ne_of_map_ne fun hyx => hold (by rw [← hyx]; exact List.mem_map_of_mem hy)
      refine ⟨hkeeps, fun y hy => ?_, fun ks hks => ⟨?_, fun hstays => ?_⟩⟩
      · rcases List.mem_cons.1 hy with rfl | hy
        -- what has arrived is left alone by the others
        · refine ⟨hname, ?_⟩
          rw [(hrest _ hgoal).2 fun z hz => (h.source_ne (htail hz) hx hname).symm, heq,
            if_pos rfl]
        · obtain ⟨hyname, hy'⟩ := harrived y hy
          refine ⟨hyname, ?_⟩
          rw [hy', heq, if_neg (h.source_ne (htail hy) hx hname), if_neg (hsource y hy)]
      · rintro ⟨y, hy, rfl⟩
        have hlater := hrest (as ++ [y.1]) fun z hz => hks z (htail hz)
        rcases List.mem_cons.1 hy with rfl | hy
        · rw [hlater.2 fun z hz => (hsource z hz).symm, heq, if_neg (hks _ hx), if_pos rfl]
        · exact hlater.1 ⟨y, hy, rfl⟩
      · rw [(hrest ks fun z hz => hks z (htail hz)).2 fun z hz => hstays z (htail hz), heq,
          if_neg (hks x hx), if_neg (hstays x hx)]

end

end ModuleMove.Disk
