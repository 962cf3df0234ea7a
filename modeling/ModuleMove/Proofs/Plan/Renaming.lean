import ModuleMove.Plan.CarryOut
import ModuleMove.Proofs.Disk.Rename
import ModuleMove.Proofs.Disk.Write
import Mathlib.Data.List.Pairwise

/-!
# RENAMING — what a list of renames makes of the files on a disk

The renames of a plan follow its edits.  They can be made if each source is there, each destination
is free, no file stands above it, and no place lies in another one.  Once they have been made, each
file is at the place that its path leads to afterwards, and no file is anywhere else.

Main statements:
  * `Movable.exists_renameAll` — what is where after the renames.
  * `passable_of_renameAll` — renames that have been made had no file above their destinations.
  * `Moved.fileAt_placeAfter`, `Moved.exists_of_fileAt` — files are at their places after the
    renames, and nowhere else.
-/

namespace ModuleMove

open ModuleMove.Path

namespace Disk

/-! ## §1. One rename. -/

/-- The content of the file at a place, if one is there. -/
def fileAt (d : Disk) (ks : List String) : Option Content := (d.top.look? ks).join

variable {d e : Disk} {p q : Path} {ns ms ks : List String} {c : Content}

theorem fileAt_eq_some : d.fileAt ks = some c ↔ d.top.look? ks = some (some c) :=
  Option.join_eq_some_iff

theorem hasFile_iff_fileAt (hd : d.Rooted) (hp : p.Straight ns) :
    d.hasFile p = true ↔ ∃ c, d.fileAt ns = some c := by
  rw [hasFile_straight hd hp]
  exact exists_congr fun c => fileAt_eq_some.symm

/-- A file is read by the names of its path. -/
theorem readText_straight (hd : d.Rooted) (hp : p.Straight ns) {s : String} :
    d.readText p = .ok s ↔ d.fileAt ns = some (.text s) := by
  rw [readText_eq_ok, fileAt_eq_some, Node.look?_eq_file]
  constructor
  · rintro ⟨pl, hl⟩
    exact ((locate_straight hd hp).1 hl).2
  · intro h
    exact ⟨ns, (locate_straight hd hp).2 ⟨rfl, h⟩⟩

/-- What is seen after something has been renamed into a directory that is made for it. -/
theorem renameInto_of_passable {a b : String} (hd : d.Rooted) (hp : p.Straight (ns ++ [a]))
    (hq : q.Straight (ms ++ [b])) (hsource : d.top.look? (ns ++ [a]) ≠ none)
    (hfree : d.top.look? (ms ++ [b]) = none) (hinto : ¬ ns ++ [a] <+: ms ++ [b])
    (hway : d.Passable ms) :
    ∃ e, renameInto d p q = (.ok (), e) ∧ e.Rooted ∧
      (∀ rest, e.top.look? (ms ++ [b] ++ rest) = d.top.look? (ns ++ [a] ++ rest)) ∧
      (∀ rest, e.top.look? (ns ++ [a] ++ rest) = none) ∧
      ∀ ks, ¬ ms ++ [b] <+: ks → ¬ ns ++ [a] <+: ks →
        e.top.look? ks = if ks <+: ms then some none else d.top.look? ks := by
  obtain ⟨r, hparent, hr⟩ := hq.exists_parent
  obtain ⟨d', hmake, hrooted, hlook⟩ := makeDirectories_of_passable hd hr hway
  -- the directories that have been made are not below the old place, nor is the new place above
  have hms : ∀ {ks}, ns ++ [a] <+: ks → ¬ ks <+: ms := fun h h' =>
    hinto ((h.trans h').trans (List.prefix_append ..))
  have hsource' : ∀ rest, d'.top.look? (ns ++ [a] ++ rest) = d.top.look? (ns ++ [a] ++ rest) := by
    intro rest
    rw [hlook, if_neg (hms (List.prefix_append ..))]
  have hgoal : ¬ ms ++ [b] <+: ms := by
    intro h
    have := h.length_le
    rw [List.length_append, List.length_singleton] at this
    omega
  have hfree' : d'.top.look? (ms ++ [b]) = none := by
    rw [hlook, if_neg hgoal, hfree]
  have hsource0 : d'.top.look? (ns ++ [a]) ≠ none := by
    have := hsource' []
    rw [List.append_nil] at this
    rw [this]
    exact hsource
  obtain ⟨e, hrename, hrooted', harrived, hleft, hkept⟩ :=
    rename_of_free hrooted hp hq hsource0
      (by rw [hlook, if_pos (List.prefix_refl _)]) hfree' hinto
  refine ⟨e, ?_, hrooted', fun rest => (harrived rest).trans (hsource' rest), hleft,
    fun ks hks hks' => (hkept ks hks hks').trans (hlook ks)⟩
  unfold renameInto
  rw [hparent]
  simp only [Option.map_some, Option.getD_some, hmake, hrename]

/-- Nothing is renamed into a directory that cannot be made. -/
theorem renameInto_of_blocked {b : String} (hd : d.Rooted) (hq : q.Straight (ms ++ [b]))
    (hway : ¬ d.Passable ms) : ∃ t, renameInto d p q = (.error t, d) := by
  obtain ⟨r, hparent, hr⟩ := hq.exists_parent
  unfold Passable at hway
  simp only [not_forall, not_not] at hway
  obtain ⟨ks, hks, c, hc⟩ := hway
  obtain ⟨t, ht⟩ := makeDirectories_of_blocked hd hr hks hc
  refine ⟨.directory q.parent t, ?_⟩
  unfold renameInto
  rw [hparent]
  simp only [Option.map_some, Option.getD_some, ht]

/-! ## §2. Several renames. -/

/-- Neither of two places is the other or lies in it. -/
def Apart (ks js : List String) : Prop := ¬ ks <+: js ∧ ¬ js <+: ks

theorem Apart.symm {ks js : List String} (h : Apart ks js) : Apart js ks := ⟨h.2, h.1⟩

/-- The sources of renames are there, their destinations are free, and neither a file nor another
    place is in the way. -/
structure Movable (d : Disk) (ms : List (Path × Path)) : Prop where
  /-- The disk has a tree. -/
  rooted : d.Rooted
  /-- The paths are written by their names. -/
  straight : ∀ m ∈ ms, m.1.Straight m.1.names ∧ m.2.Straight m.2.names
  /-- Something is at each old place. -/
  source : ∀ m ∈ ms, d.top.look? m.1.names ≠ none
  /-- Nothing is at a new place. -/
  free : ∀ m ∈ ms, d.top.look? m.2.names = none
  /-- No file stands above a new place. -/
  way : ∀ m ∈ ms, d.Passable m.2.names.dropLast
  /-- No new place lies in an old one. -/
  into : ∀ m ∈ ms, ∀ k ∈ ms, ¬ m.1.names <+: k.2.names
  /-- The old places are apart. -/
  sources : ms.Pairwise fun m k => Apart m.1.names k.1.names
  /-- The new places are apart. -/
  goals : ms.Pairwise fun m k => Apart m.2.names k.2.names

/-- What is where after renames: a file that lay at an old place is at the new one, nothing is left
    behind, and every other file is where it was. -/
structure Moved (d e : Disk) (ms : List (Path × Path)) : Prop where
  /-- What lay at an old place, or below it, is at the new one. -/
  arrived : ∀ m ∈ ms, ∀ rest, e.fileAt (m.2.names ++ rest) = d.fileAt (m.1.names ++ rest)
  /-- Nothing is left at the old place. -/
  left : ∀ m ∈ ms, ∀ rest, e.fileAt (m.1.names ++ rest) = none
  /-- Everything else is as it was. -/
  kept : ∀ ks, (∀ m ∈ ms, ¬ m.1.names <+: ks ∧ ¬ m.2.names <+: ks) → e.fileAt ks = d.fileAt ks

/-- What is seen after one rename: what was at the old place is at the new one, and there are
    directories on the way to it. -/
structure Renamed (d e : Disk) (m : Path × Path) : Prop where
  /-- The disk has a tree. -/
  rooted : e.Rooted
  /-- What was at the old place is at the new one. -/
  arrived : ∀ rest, e.top.look? (m.2.names ++ rest) = d.top.look? (m.1.names ++ rest)
  /-- Nothing is left at the old place. -/
  left : ∀ rest, e.top.look? (m.1.names ++ rest) = none
  /-- Everything else is as it was, but for directories on the way to the new place. -/
  kept : ∀ ks, ¬ m.2.names <+: ks → ¬ m.1.names <+: ks →
    e.top.look? ks = if ks <+: m.2.names.dropLast then some none else d.top.look? ks

variable {m : Path × Path} {moves : List (Path × Path)}

/-- No old place lies in a new one, since nothing is there. -/
theorem Movable.back (h : d.Movable moves) {m k : Path × Path} (hm : m ∈ moves) (hk : k ∈ moves) :
    ¬ m.2.names <+: k.1.names := by
  rintro ⟨rest, hrest⟩
  apply h.source k hk
  rw [← hrest, Node.look?_eq_none, Node.find?_append, Node.look?_eq_none.1 (h.free m hm)]
  rfl

/-- The names of the places of a rename, of which the last one stands in a directory. -/
theorem Movable.exists_names (h : d.Movable moves) (hm : m ∈ moves) :
    ∃ ns a gs b, m.1.names = ns ++ [a] ∧ m.2.names = gs ++ [b] ∧ m.1.Straight (ns ++ [a]) ∧
      m.2.Straight (gs ++ [b]) := by
  obtain ⟨h1, h2⟩ := h.straight m hm
  have hne : m.1.names ≠ [] := fun h0 => h.into m hm m hm (by rw [h0]; exact List.nil_prefix ..)
  have hne' : m.2.names ≠ [] := by
    intro h0
    have := h.free m hm
    rw [h0, h.rooted.look?_nil] at this
    cases this
  obtain ⟨ns, a, hns⟩ := (List.eq_nil_or_concat' _).resolve_left hne
  obtain ⟨gs, b, hgs⟩ := (List.eq_nil_or_concat' _).resolve_left hne'
  exact ⟨ns, a, gs, b, hns, hgs, hns ▸ h1, hgs ▸ h2⟩

/-- A rename with nothing in its way can be made. -/
theorem Movable.exists_renamed (h : d.Movable moves) (hm : m ∈ moves) :
    ∃ e, renameInto d m.1 m.2 = (.ok (), e) ∧ d.Renamed e m := by
  obtain ⟨ns, a, gs, b, hns, hgs, h1, h2⟩ := h.exists_names hm
  have hsource := h.source m hm
  have hfree := h.free m hm
  have hinto := h.into m hm m hm
  have hway := h.way m hm
  rw [hns] at hsource
  rw [hgs] at hfree
  rw [hns, hgs] at hinto
  rw [hgs, List.dropLast_concat] at hway
  obtain ⟨e, he, hrooted, harrived, hleft, hkept⟩ :=
    renameInto_of_passable h.rooted h1 h2 hsource hfree hinto hway
  refine ⟨e, he, hrooted, ?_, ?_, ?_⟩
  · rw [hns, hgs]
    exact harrived
  · rw [hns]
    exact hleft
  · rw [hns, hgs, List.dropLast_concat]
    exact hkept

/-- Where a directory has been made for a rename, no file was before. -/
theorem Renamed.fileAt_eq (hr : d.Renamed e m) (hway : d.Passable m.2.names.dropLast)
    (h2 : ¬ m.2.names <+: ks) (h1 : ¬ m.1.names <+: ks) : e.fileAt ks = d.fileAt ks := by
  unfold fileAt
  rw [hr.kept ks h2 h1]
  split
  · rename_i hle
    rcases hd : d.top.look? ks with _ | _ | c
    · rfl
    · rfl
    · exact absurd hd (hway ks hle c)
  · rfl

theorem Renamed.moved (hr : d.Renamed e m) (hway : d.Passable m.2.names.dropLast) :
    d.Moved e [m] := by
  refine ⟨fun k hk rest => ?_, fun k hk rest => ?_, fun ks hks => ?_⟩
  · rw [List.mem_singleton.1 hk]
    unfold fileAt
    rw [hr.arrived]
  · rw [List.mem_singleton.1 hk]
    unfold fileAt
    rw [hr.left]
    rfl
  · obtain ⟨h1, h2⟩ := hks m (List.mem_singleton_self m)
    exact hr.fileAt_eq hway h2 h1

/-- After the first of several renames, the others can still be made. -/
theorem Renamed.movable (hr : d.Renamed e m) (h : d.Movable (m :: moves)) : e.Movable moves := by
  have hm : m ∈ m :: moves := List.mem_cons_self ..
  have htail : ∀ {k}, k ∈ moves → k ∈ m :: moves := fun hk => List.mem_cons_of_mem _ hk
  obtain ⟨hsources, hsources'⟩ := List.pairwise_cons.1 h.sources
  obtain ⟨hgoals, hgoals'⟩ := List.pairwise_cons.1 h.goals
  refine ⟨hr.rooted, fun k hk => h.straight k (htail hk), fun k hk => ?_, fun k hk => ?_,
    fun k hk ks hks c hc => ?_, fun k hk j hj => h.into k (htail hk) j (htail hj), hsources',
    hgoals'⟩
  · rw [hr.kept _ (h.back hm (htail hk)) (hsources k hk).1]
    split
    · simp
    · exact h.source k (htail hk)
  · rw [hr.kept _ (hgoals k hk).1 (h.into m hm k (htail hk)), if_neg]
    · exact h.free k (htail hk)
    · exact fun hle => (hgoals k hk).2 (hle.trans (List.dropLast_prefix _))
  · -- a file above another destination would have been there before
    have hle := hks.trans (List.dropLast_prefix _)
    rw [← fileAt_eq_some, hr.fileAt_eq (h.way m hm) (fun h' => (hgoals k hk).1 (h'.trans hle))
      (fun h' => h.into m hm k (htail hk) (h'.trans hle)), fileAt_eq_some] at hc
    exact h.way k (htail hk) ks hks c hc

/-- **The first of several renames**: the others can still be made. -/
theorem Movable.step (h : d.Movable (m :: moves)) :
    ∃ e, renameInto d m.1 m.2 = (.ok (), e) ∧ e.Movable moves ∧ d.Moved e [m] := by
  have hm : m ∈ m :: moves := List.mem_cons_self ..
  obtain ⟨e, he, hr⟩ := h.exists_renamed hm
  exact ⟨e, he, hr.movable h, hr.moved (h.way m hm)⟩

/-- What renames do one after the other. -/
theorem Moved.cons {d' : Disk} (h : d.Movable (m :: moves)) (h1 : d.Moved d' [m])
    (h2 : d'.Moved e moves) : d.Moved e (m :: moves) := by
  have hm : m ∈ m :: moves := List.mem_cons_self ..
  have hm' : m ∈ [m] := List.mem_singleton_self m
  have htail : ∀ {k}, k ∈ moves → k ∈ m :: moves := fun hk => List.mem_cons_of_mem _ hk
  obtain ⟨hsources, -⟩ := List.pairwise_cons.1 h.sources
  obtain ⟨hgoals, -⟩ := List.pairwise_cons.1 h.goals
  -- what lies at one place lies at none that is apart from it
  have hapart : ∀ {ks js rest : List String}, ¬ ks <+: js → ¬ js <+: ks → ¬ ks <+: js ++ rest := by
    intro ks js rest h h' hle
    rcases List.prefix_or_prefix_of_prefix hle (List.prefix_append js rest) with hle | hle
    · exact h hle
    · exact h' hle
  refine ⟨?_, ?_, ?_⟩
  -- what one rename has brought, the others leave alone
  · intro k hk rest
    rcases List.mem_cons.1 hk with rfl | hk
    · rw [h2.kept, h1.arrived _ hm']
      intro j hj
      exact ⟨hapart (h.into j (htail hj) k hm) (h.back hm (htail hj)),
        hapart (hgoals j hj).2 (hgoals j hj).1⟩
    · rw [h2.arrived k hk, h1.kept]
      intro j hj
      rw [List.mem_singleton.1 hj]
      exact ⟨hapart (hsources k hk).1 (hsources k hk).2,
        hapart (h.back hm (htail hk)) (h.into k (htail hk) m hm)⟩
  · intro k hk rest
    rcases List.mem_cons.1 hk with rfl | hk
    · rw [h2.kept, h1.left _ hm']
      intro j hj
      exact ⟨hapart (hsources j hj).2 (hsources j hj).1,
        hapart (h.back (htail hj) hm) (h.into k hm j (htail hj))⟩
    · exact h2.left k hk rest
  · intro ks hks
    rw [h2.kept ks fun k hk => hks k (htail hk), h1.kept ks]
    intro k hk
    rw [List.mem_singleton.1 hk]
    exact hks m hm

theorem Movable.exists_renameEach (h : d.Movable moves) :
    ∃ e, renameEach d moves = (.ok (), e) ∧ e.Rooted ∧ d.Moved e moves := by
  -- by induction on the renames: after each one, the others can still be made
  induction moves generalizing d with
  | nil => exact ⟨d, rfl, h.rooted, by simp, by simp, fun ks _ => rfl⟩
  | cons m moves ih =>
    obtain ⟨d', hd', hmovable, hmoved⟩ := h.step
    obtain ⟨e, he, hrooted, hmoved'⟩ := ih hmovable
    refine ⟨e, ?_, hrooted, hmoved.cons h hmoved'⟩
    obtain ⟨old, new⟩ := m
    rw [renameEach, hd']
    exact he

/-- **Renames with nothing in their way can be made.** -/
theorem Movable.exists_renameAll (h : d.Movable moves) :
    ∃ e, renameAll d moves = (.ok (), e) ∧ e.Rooted ∧ d.Moved e moves := by
  have hnone : moves.find? (fun m => d.has m.2) = none := by
    rw [List.find?_eq_none]
    intro m hm hhas
    rw [has_straight h.rooted (h.straight m hm).2, h.free m hm] at hhas
    cases hhas
  unfold renameAll
  rw [hnone]
  exact h.exists_renameEach

/-- **Renames into one directory have only been made if no file stood in the way.** -/
theorem passable_of_renameAll {gs : List String} (hd : d.Rooted)
    (hgoals : ∀ m ∈ moves, ∃ b, m.2.Straight (gs ++ [b]))
    (he : renameAll d moves = (.ok (), e)) (hm : m ∈ moves) : d.Passable gs := by
  by_contra hblocked
  unfold renameAll at he
  split at he
  · cases he
  · -- the first of them fails already
    cases moves with
    | nil => cases hm
    | cons k moves =>
      obtain ⟨b, hb⟩ := hgoals k (List.mem_cons_self ..)
      obtain ⟨t, ht⟩ := renameInto_of_blocked (p := k.1) hd hb hblocked
      obtain ⟨old, new⟩ := k
      rw [renameEach, ht] at he
      cases he

/-! ## §3. Disks of one shape. -/

/-- Where a disk has no file, a disk of the same shape has none. -/
theorem SameShape.look?_eq_none (h : d.SameShape e) :
    e.top.look? ks = none ↔ d.top.look? ks = none := by
  have := h.2 ks
  rw [Node.map_isDirectory_find?, Node.map_isDirectory_find?] at this
  rw [← Option.map_eq_none_iff (f := Option.isNone), this, Option.map_eq_none_iff]

/-- Files are at the same places. -/
theorem SameShape.exists_fileAt (h : d.SameShape e) :
    (∃ c, e.fileAt ks = some c) ↔ ∃ c, d.fileAt ks = some c := by
  have := h.2 ks
  rw [Node.map_isDirectory_find?, Node.map_isDirectory_find?] at this
  unfold fileAt
  rcases he : e.top.look? ks with _ | _ | c <;> rcases hd : d.top.look? ks with _ | _ | c' <;>
    simp_all

theorem SameShape.passable_iff (h : d.SameShape e) : e.Passable ns ↔ d.Passable ns := by
  have hfile : ∀ ks, (∀ c, e.top.look? ks ≠ some (some c)) ↔
      ∀ c, d.top.look? ks ≠ some (some c) := by
    intro ks
    have := h.2 ks
    rw [Node.map_isDirectory_find?, Node.map_isDirectory_find?] at this
    rcases he : e.top.look? ks with _ | _ | c <;> rcases hd : d.top.look? ks with _ | _ | c' <;>
      simp_all
  exact forall_congr' fun ks => imp_congr_right fun _ => hfile ks

/-- Renames that can be made on a disk can be made on one of the same shape. -/
theorem Movable.of_sameShape (h : d.Movable moves) (he : e.Rooted) (hs : d.SameShape e) :
    e.Movable moves :=
  ⟨he, h.straight, fun m hm => mt hs.look?_eq_none.1 (h.source m hm),
    fun m hm => hs.look?_eq_none.2 (h.free m hm), fun m hm => hs.passable_iff.2 (h.way m hm),
    h.into, h.sources, h.goals⟩

end Disk

/-! ## §4. Places after the renames. -/

/-- Whether renames give what is at a path another place. -/
def Renames (ms : List (Path × Path)) (q : Path) : Prop := ∃ m ∈ ms, q.isUnder m.1 = true

/-- Where a path leads to after renames: a path at or below one that is renamed goes with it. -/
def placeAfter (ms : List (Path × Path)) (q : Path) : Path :=
  match ms.find? fun m => q.isUnder m.1 with
  | some m => .ofComponents (m.2.components ++ q.components.drop m.1.components.length)
  | none => q

section

variable {d e : Disk} {q : Path} {moves : List (Path × Path)} {m : Path × Path}
  {ns rest : List String} {c : Content}

theorem placeAfter_of_stays (h : ¬ Renames moves q) : placeAfter moves q = q := by
  have hnone : moves.find? (fun m => q.isUnder m.1) = none :=
    List.find?_eq_none.2 fun m hm hu => h ⟨m, hm, hu⟩
  unfold placeAfter
  rw [hnone]

/-- The path to something in a place that is renamed leads to the new place. -/
theorem placeAfter_of_mem (h : d.Movable moves) (hm : m ∈ moves)
    (hq : q.Straight (m.1.names ++ rest)) :
    Renames moves q ∧ (placeAfter moves q).Straight (m.2.names ++ rest) := by
  obtain ⟨h1, h2⟩ := h.straight m hm
  have hunder : q.isUnder m.1 = true := (hq.isUnder_iff h1).2 (List.prefix_append ..)
  refine ⟨⟨m, hm, hunder⟩, ?_⟩
  -- the rename that is found is this one, since the path lies in no other old place
  have hfind : moves.find? (fun k => q.isUnder k.1) = some m := by
    have hsome : (moves.find? fun k => q.isUnder k.1).isSome = true := by
      rw [List.find?_isSome]
      exact ⟨m, hm, hunder⟩
    obtain ⟨k, hk⟩ := Option.isSome_iff_exists.1 hsome
    have hkm := List.mem_of_find?_eq_some hk
    have hku := List.find?_some hk
    have hku := (hq.isUnder_iff (h.straight k hkm).1).1 hku
    -- no two old places have something in common below them
    by_contra hne
    have hdiff : k ≠ m := by
      rintro rfl
      exact hne hk
    have hsymm : Std.Symm fun i j : Path × Path => Disk.Apart i.1.names j.1.names :=
      ⟨fun _ _ => Disk.Apart.symm⟩
    have hapart : Disk.Apart k.1.names m.1.names := h.sources.forall hkm hm hdiff
    rcases List.prefix_or_prefix_of_prefix hku (List.prefix_append _ _) with hle | hle
    · exact hapart.1 hle
    · exact hapart.2 hle
  have hdrop : q.components.drop m.1.components.length = rest.map Component.name := by
    rw [hq.components, h1.components, List.map_append, ← List.cons_append, List.drop_left]
  have hplace : placeAfter moves q
      = .ofComponents (.root :: (m.2.names ++ rest).map Component.name) := by
    unfold placeAfter
    rw [hfind, List.map_append, ← List.cons_append, ← h2.components, ← hdrop]
  rw [hplace]
  refine ⟨?_, ?_⟩
  · intro s hs
    rcases List.mem_append.1 hs with hs | hs
    · exact h2.1 s hs
    · exact hq.1 s (List.mem_append_right _ hs)
  · show "/" ++ joinText '/' (textsOf ((m.2.names ++ rest).map Component.name)) = _
    rw [textsOf_map_name]

/-- A path stays, or leads into a place that is renamed. -/
theorem renames_cases (h : d.Movable moves) (hq : q.Straight ns) :
    ¬ Renames moves q ∧ (∀ m ∈ moves, ¬ m.1.names <+: ns) ∨
      ∃ m ∈ moves, ∃ rest, ns = m.1.names ++ rest := by
  by_cases hr : Renames moves q
  · obtain ⟨m, hm, hu⟩ := hr
    obtain ⟨rest, hrest⟩ := (hq.isUnder_iff (h.straight m hm).1).1 hu
    exact .inr ⟨m, hm, rest, hrest.symm⟩
  · exact .inl ⟨hr, fun m hm hle => hr ⟨m, hm, (hq.isUnder_iff (h.straight m hm).1).2 hle⟩⟩

namespace Disk

/-- **A file is at its place after the renames.** -/
theorem Moved.fileAt_placeAfter (h : d.Moved e moves) (hm : d.Movable moves) (hq : q.Straight ns)
    (hc : d.fileAt ns = some c) :
    ∃ gs, (placeAfter moves q).Straight gs ∧ e.fileAt gs = some c := by
  rcases renames_cases hm hq with ⟨hstays, hns⟩ | ⟨m, hmem, rest, rfl⟩
  · rw [placeAfter_of_stays hstays]
    refine ⟨ns, hq, ?_⟩
    rw [h.kept ns, hc]
    -- a file that stays lies at no new place, where nothing was
    rintro m hmem
    refine ⟨hns m hmem, ?_⟩
    rintro ⟨rest, rfl⟩
    rw [fileAt_eq_some, Node.look?_eq_file, Node.find?_append,
      Node.look?_eq_none.1 (hm.free m hmem)] at hc
    cases hc
  · obtain ⟨-, hgs⟩ := placeAfter_of_mem hm hmem hq
    exact ⟨_, hgs, (h.arrived m hmem rest).trans hc⟩

/-- **No file is anywhere else after the renames.** -/
theorem Moved.exists_of_fileAt (h : d.Moved e moves) (hm : d.Movable moves) (hq : q.Straight ns)
    (hc : e.fileAt ns = some c) :
    ∃ p ms, p.Straight ms ∧ d.fileAt ms = some c ∧ placeAfter moves p = q := by
  -- a file at a new place has come there; elsewhere it has stayed, for old places are empty
  by_cases hgoal : ∃ m ∈ moves, m.2.names <+: ns
  · obtain ⟨m, hmem, rest, rfl⟩ := hgoal
    rw [h.arrived m hmem] at hc
    have hnames : ∀ s ∈ m.1.names ++ rest, IsName s := by
      intro s hs
      rcases List.mem_append.1 hs with hs | hs
      · exact (hm.straight m hmem).1.1 s hs
      · exact hq.1 s (List.mem_append_right _ hs)
    obtain ⟨p, hp⟩ := exists_straight hnames
    exact ⟨p, _, hp, hc, (placeAfter_of_mem hm hmem hp).2.ext hq⟩
  · rcases renames_cases hm hq with ⟨hstays, hns⟩ | ⟨m, hmem, rest, rfl⟩
    · rw [h.kept ns fun m hmem => ⟨hns m hmem, fun hle => hgoal ⟨m, hmem, hle⟩⟩] at hc
      exact ⟨q, ns, hq, hc, placeAfter_of_stays hstays⟩
    · rw [h.left m hmem] at hc
      cases hc

end Disk

end

end ModuleMove
