import ModuleMove.Proofs.Disk.Straight

/-!
# RENAMING ON A DISK — directories are made, and something gets another place

A directory is made together with those above it that are missing, unless a file stands in the way.
What is renamed is then seen at its new place with everything in it, and is seen no longer at its
old one.

Main statements:
  * `makeDirectories_of_passable`, `makeDirectories_of_blocked` — directories can be made exactly
    where no file stands in the way.
  * `rename_of_free` — what is seen after something has been given a free place.
-/

namespace ModuleMove.Disk

open ModuleMove.Path

variable {d : Disk} {p q : Path} {ns ms ks : List String} {s : String}

/-! ## §1. Another node at a place. -/

theorem Rooted.remember (hd : d.Rooted) (deed : Deed) : (d.remember deed).Rooted :=
  ⟨hd.tree, hd.top⟩

/-- What is seen on a disk with something else at a place in a directory. -/
theorem look?_alter (hd : d.Rooted) (hdir : d.top.look? ns = some none) (hs : IsName s)
    {x : Option Node} (hx : ∀ m ∈ x, m.WellFormed) :
    (d.alter (ns ++ [s]) fun _ => x).Rooted ∧
      (∀ rest, (d.alter (ns ++ [s]) fun _ => x).top.look? (ns ++ [s] ++ rest)
        = x.bind (Node.look? rest)) ∧
      ∀ ks, ¬ ns ++ [s] <+: ks →
        (d.alter (ns ++ [s]) fun _ => x).top.look? ks = d.top.look? ks := by
  obtain ⟨es, hes⟩ := Node.look?_eq_directory.1 hdir
  obtain ⟨m, hm, hwf, hbelow, haside⟩ := Node.exists_altered hd.tree hes hs hx
  have htop : (d.alter (ns ++ [s]) fun _ => x).top = m := by
    unfold alter
    rw [hm]
    rfl
  rw [htop]
  refine ⟨⟨htop ▸ hwf, ?_⟩, hbelow, haside⟩
  have hroot := haside [] (by simp)
  rw [hd.look?_nil] at hroot
  obtain ⟨ds, hds⟩ := Node.look?_eq_directory.1 hroot
  refine ⟨ds, ?_⟩
  rw [htop]
  exact Option.some.inj hds

/-! ## §2. Making a directory. -/

theorem nameAt_root (hd : d.Rooted) (hp : p.Straight []) : d.nameAt p = .ok ([], none) := by
  obtain ⟨es, hes⟩ := hd.top
  have hfollow : d.followFrom p [] = .ok ([], .directory es) := by
    rw [followFrom_straight hp, hes]
    rfl
  unfold nameAt
  rw [text_ne_empty_of_straight hp, bareSteps_straight hp, if_neg (by decide)]
  simp only [List.dropLast_nil, hfollow]
  rfl

/-- Where something is, no directory is made. -/
theorem makeDirectory_of_seen (hd : d.Rooted) (hp : p.Straight ns) (h : d.top.look? ns ≠ none) :
    d.makeDirectory p = .error .exists := by
  unfold makeDirectory
  rcases List.eq_nil_or_concat' ns with rfl | ⟨ks, s, rfl⟩
  · rw [nameAt_root hd hp]
  · rw [nameAt_of_directory hp (look?_of_append h)]
    obtain ⟨m, hm⟩ := Option.ne_none_iff_exists'.1 (mt Node.look?_eq_none.2 h)
    simp only [at?, hm]

/-- In a directory, one is made under a free name. -/
theorem makeDirectory_of_free (hd : d.Rooted) (hp : p.Straight (ns ++ [s]))
    (hdir : d.top.look? ns = some none) (hfree : d.top.look? (ns ++ [s]) = none) :
    ∃ e, d.makeDirectory p = .ok e ∧ e.Rooted ∧
      ∀ ks, e.top.look? ks = if ks = ns ++ [s] then some none else d.top.look? ks := by
  have hx : ∀ m ∈ some (Node.directory []), m.WellFormed := by
    rintro m ⟨⟩
    rw [Node.WellFormed]
    exact ⟨List.nodup_nil, trivial⟩
  obtain ⟨hrooted, hbelow, haside⟩ := look?_alter hd hdir (hp.1 s (by simp)) hx
  refine ⟨_, ?_, hrooted.remember (.made p), fun ks => ?_⟩
  · unfold makeDirectory
    rw [nameAt_of_directory hp hdir]
    simp only [at?, Node.look?_eq_none.1 hfree]
  · by_cases hks : ns ++ [s] <+: ks
    · obtain ⟨rest, rfl⟩ := hks
      refine (hbelow rest).trans ?_
      cases rest with
      | nil =>
        rw [if_pos (List.append_nil _)]
        rfl
      | cons k rest =>
        have hnone : d.top.look? (ns ++ [s] ++ k :: rest) = none := by
          rw [Node.look?_eq_none, Node.find?_append, Node.look?_eq_none.1 hfree]
          rfl
        rw [if_neg (by simp), hnone]
        rfl
    · have hne : ks ≠ ns ++ [s] := by
        rintro rfl
        exact hks (List.prefix_refl _)
      rw [if_neg hne]
      exact haside ks hks

/-! ## §3. Making directories. -/

/-- Neither at the names nor above them stands a file. -/
def Passable (d : Disk) (ns : List String) : Prop :=
  ∀ ks, ks <+: ns → ∀ c, d.top.look? ks ≠ some (some c)

theorem Passable.of_prefix (h : d.Passable ns) (hks : ks <+: ns) : d.Passable ks :=
  fun js hjs => h js (hjs.trans hks)

theorem haveDirectories_of_ok {e : Disk} (hp : p.Straight ns) (h : d.makeDirectory p = .ok e)
    (fuel : Nat) : haveDirectories fuel d p = .ok e := by
  cases fuel with
  | zero =>
    unfold haveDirectories haveDirectory
    rw [h]
  | succ fuel =>
    unfold haveDirectories
    rw [text_ne_empty_of_straight hp, if_neg (by decide), h]

theorem haveDirectories_of_error {t : FileTrouble} (hp : p.Straight ns)
    (h : d.makeDirectory p = .error t) (ht : t ≠ .missing) (fuel : Nat) :
    haveDirectories fuel d p = if d.hasDirectory p then .ok d else .error t := by
  cases fuel with
  | zero =>
    unfold haveDirectories haveDirectory
    rw [h]
  | succ fuel =>
    unfold haveDirectories
    rw [text_ne_empty_of_straight hp, if_neg (by decide), h]
    cases t <;> first | exact absurd rfl ht | rfl

/-- A directory that is there has all of those above it. -/
theorem look?_of_directory (h : d.top.look? ns = some none) (ks : List String) :
    d.top.look? ks = if ks <+: ns then some none else d.top.look? ks := by
  split
  · rename_i hks
    by_cases he : ks = ns
    · rw [he, h]
    · exact look?_above hks he (by rw [h]; simp)
  · rfl

/-- For a directory that is there, nothing is done. -/
theorem haveDirectories_of_directory (hd : d.Rooted) (hp : p.Straight ns)
    (h : d.top.look? ns = some none) (fuel : Nat) : haveDirectories fuel d p = .ok d := by
  have hexists := makeDirectory_of_seen hd hp (by rw [h]; simp)
  rw [haveDirectories_of_error hp hexists (by simp), if_pos ((hasDirectory_straight hd hp).2 h)]

/-- Where the directory above is missing, it is made first. -/
theorem haveDirectories_of_missing {e e' : Disk} {fuel : Nat} (hp : p.Straight ns)
    (h : d.makeDirectory p = .error .missing) (hparent : p.parent? = some q)
    (he : haveDirectories fuel d q = .ok e) (he' : e.makeDirectory p = .ok e') :
    haveDirectories (fuel + 1) d p = .ok e' := by
  unfold haveDirectories
  rw [text_ne_empty_of_straight hp, if_neg (by decide), h]
  simp only [hparent, he]
  show e.haveDirectory p = _
  unfold haveDirectory
  rw [he']

/-- Where no file stands in the way, all the directories on it are there in the end, and nothing
    else has changed. -/
theorem haveDirectories_of_passable (hd : d.Rooted) (hp : p.Straight ns) (h : d.Passable ns)
    {fuel : Nat} (hfuel : ns.length ≤ fuel) : ∃ e, haveDirectories fuel d p = .ok e ∧ e.Rooted ∧
      ∀ ks, e.top.look? ks = if ks <+: ns then some none else d.top.look? ks := by
  induction ns using List.reverseRecOn generalizing p fuel with
  | nil =>
    have hroot := hd.look?_nil
    exact ⟨d, haveDirectories_of_directory hd hp hroot fuel, hd, look?_of_directory hroot⟩
  | append_singleton ns s ih =>
    have hprefix : ns <+: ns ++ [s] := List.prefix_append ..
    rcases hn : d.top.look? (ns ++ [s]) with _ | _ | c
    · -- the directory that it is in is made first, unless it is there
      have hfirst : ∃ e : Disk, e.Rooted ∧
          (∀ ks, e.top.look? ks = if ks <+: ns then some none else d.top.look? ks) ∧
          ∀ e', e.makeDirectory p = .ok e' → haveDirectories fuel d p = .ok e' := by
        rcases hdir : d.top.look? ns with _ | _ | c
        · obtain ⟨q, hparent, hq⟩ := hp.exists_parent
          rw [List.length_append, List.length_singleton] at hfuel
          obtain ⟨fuel, rfl⟩ : ∃ k, fuel = k + 1 := ⟨fuel - 1, by omega⟩
          obtain ⟨e, he, hrooted, hlook⟩ :=
            ih hq (h.of_prefix hprefix) (by omega : ns.length ≤ fuel)
          have hmissing : d.makeDirectory p = .error .missing := by
            unfold makeDirectory
            rw [nameAt_of_missing hp hdir (h.of_prefix hprefix)]
          exact ⟨e, hrooted, hlook, fun e' => haveDirectories_of_missing hp hmissing hparent he⟩
        · exact ⟨d, hd, look?_of_directory hdir, fun e' he' => haveDirectories_of_ok hp he' fuel⟩
        · exact absurd hdir (h _ hprefix c)
      obtain ⟨e, hrooted, hlook, hmade⟩ := hfirst
      have hdir : e.top.look? ns = some none := by rw [hlook, if_pos (List.prefix_refl _)]
      have hfree : e.top.look? (ns ++ [s]) = none := by
        rw [hlook, if_neg, hn]
        intro hle
        have := hle.length_le
        rw [List.length_append, List.length_singleton] at this
        omega
      obtain ⟨e', he', hrooted', hlook'⟩ := makeDirectory_of_free hrooted hp hdir hfree
      refine ⟨e', hmade e' he', hrooted', fun ks => ?_⟩
      rw [hlook', hlook]
      by_cases hks : ks = ns ++ [s]
      · rw [if_pos hks, if_pos (by rw [hks])]
      · rw [if_neg hks]
        simp only [List.prefix_concat_iff, hks, false_or]
    · exact ⟨d, haveDirectories_of_directory hd hp hn fuel, hd, look?_of_directory hn⟩
    · exact absurd hn (h _ (List.prefix_refl _) c)

/-- **Where no file stands in the way, directories can be made**: all those on the way are there in
    the end, and nothing else has changed. -/
theorem makeDirectories_of_passable (hd : d.Rooted) (hp : p.Straight ns) (h : d.Passable ns) :
    ∃ e, d.makeDirectories p = .ok e ∧ e.Rooted ∧
      ∀ ks, e.top.look? ks = if ks <+: ns then some none else d.top.look? ks := by
  refine haveDirectories_of_passable hd hp h ?_
  rw [stepsOf_straight hp]
  split
  · rename_i hns
    rw [hns]
    exact Nat.zero_le _
  · exact Nat.le_refl _

/-- **Where a file stands in the way, no directory can be made.** -/
theorem makeDirectories_of_blocked (hd : d.Rooted) (hp : p.Straight ns) {c : Content}
    (hks : ks <+: ns) (h : d.top.look? ks = some (some c)) :
    ∃ t, d.makeDirectories p = .error t := by
  have hno : d.hasDirectory p = false := by
    rw [Bool.eq_false_iff]
    intro hdir
    have hns := (hasDirectory_straight hd hp).1 hdir
    by_cases he : ks = ns
    · rw [he, hns] at h
      cases h
    · rw [look?_above hks he (by rw [hns]; simp)] at h
      cases h
  have herror : ∃ t, d.makeDirectory p = .error t ∧ t ≠ .missing := by
    rcases List.eq_nil_or_concat' ns with rfl | ⟨ms, s, rfl⟩
    · exact ⟨.exists, makeDirectory_of_seen hd hp (by rw [hd.look?_nil]; simp), by simp⟩
    · rcases List.prefix_concat_iff.1 hks with rfl | hks
      · exact ⟨.exists, makeDirectory_of_seen hd hp (by rw [h]; simp), by simp⟩
      · refine ⟨.notDirectory, ?_, by simp⟩
        unfold makeDirectory
        rw [nameAt_of_blocked hp hks h]
  obtain ⟨t, hmake, ht⟩ := herror
  refine ⟨t, ?_⟩
  unfold makeDirectories
  rw [haveDirectories_of_error hp hmake ht, if_neg (by rw [hno]; decide)]

/-! ## §4. Renaming. -/

theorem meansDirectory_straight (hp : p.Straight (ns ++ [s])) : meansDirectory p = false := by
  unfold meansDirectory
  rw [bareSteps_straight hp, stepsOf_straight hp, if_neg (by simp)]
  simp

/-- **What is renamed is seen at its new place, with everything in it, and no longer at its old
    one**; everything else is seen as before. -/
theorem rename_of_free {a b : String} (hd : d.Rooted) (hp : p.Straight (ns ++ [a]))
    (hq : q.Straight (ms ++ [b])) (hsource : d.top.look? (ns ++ [a]) ≠ none)
    (hdir : d.top.look? ms = some none) (hfree : d.top.look? (ms ++ [b]) = none)
    (hinto : ¬ ns ++ [a] <+: ms ++ [b]) :
    ∃ e, d.rename p q = .ok e ∧ e.Rooted ∧
      (∀ rest, e.top.look? (ms ++ [b] ++ rest) = d.top.look? (ns ++ [a] ++ rest)) ∧
      (∀ rest, e.top.look? (ns ++ [a] ++ rest) = none) ∧
      ∀ ks, ¬ ms ++ [b] <+: ks → ¬ ns ++ [a] <+: ks → e.top.look? ks = d.top.look? ks := by
  obtain ⟨n, hn⟩ := Option.ne_none_iff_exists'.1 (mt Node.look?_eq_none.2 hsource)
  have hwf : n.WellFormed := hd.tree.find? hn
  -- the old place is left
  obtain ⟨hrooted, hbelow, haside⟩ :=
    look?_alter (x := none) hd (look?_of_append hsource) (hp.1 a (by simp)) (by simp)
  have hback : ¬ ms ++ [b] <+: ns ++ [a] := by
    rintro ⟨rest, hrest⟩
    rw [Node.look?_eq_none] at hfree
    rw [← hrest, Node.find?_append, hfree] at hn
    cases hn
  have hms : ¬ ns ++ [a] <+: ms := fun h => hinto (h.trans (List.prefix_append ..))
  have hdir' := (haside ms hms).trans hdir
  -- the new one is taken
  obtain ⟨hrooted', hbelow', haside'⟩ :=
    look?_alter (x := some n) hrooted hdir' (hq.1 b (by simp)) (by rintro m ⟨⟩; exact hwf)
  refine ⟨_, ?_, hrooted'.remember (.renamed p q), fun rest => ?_, fun rest => ?_,
    fun ks hgoal hks => ?_⟩
  · have hsg : (ns ++ [a] == ms ++ [b]) = false := by
      rw [beq_eq_false_iff_ne]
      exact fun he => hinto (by rw [he])
    have hprefix : (ns ++ [a]).isPrefixOf (ms ++ [b]) = false := by
      rw [Bool.eq_false_iff, Ne, List.isPrefixOf_iff_prefix]
      exact hinto
    have hprefix' : (ms ++ [b]).isPrefixOf (ns ++ [a]) = false := by
      rw [Bool.eq_false_iff, Ne, List.isPrefixOf_iff_prefix]
      exact hback
    unfold rename
    rw [nameAt_of_directory hp (look?_of_append hsource), nameAt_of_directory hq hdir]
    simp only [bind, Except.bind, at?, hn, meansDirectory_straight hp, meansDirectory_straight hq,
      hsg, hprefix, hprefix', Node.look?_eq_none.1 hfree, replaceTrouble, Bool.or_self,
      Bool.and_false, Bool.false_eq_true, if_false]
  · refine (hbelow' rest).trans ?_
    rw [Node.look?, Node.find?_append, hn]
    rfl
  · -- what lay below the old place is not below the new one
    have hgoal : ¬ ms ++ [b] <+: ns ++ [a] ++ rest := by
      intro h
      rcases List.prefix_or_prefix_of_prefix h (List.prefix_append (ns ++ [a]) rest) with h | h
      · exact hback h
      · exact hinto h
    exact (haside' _ hgoal).trans (hbelow rest)
  · exact (haside' ks hgoal).trans (haside ks hks)

end ModuleMove.Disk
