import ModuleMove.Proofs.Disk.Follow

/-!
# WRITING FILES — one file changes and every path leads where it led

Writing a file that is there cannot fail, and puts the new text where the old one was.  As no
directory comes or goes, paths lead to the same places as before, and whatever is at another place
is read as before.

Main statements:
  * `Disk.write_of_locate` — a file that is there can be written, and what is seen then.
  * `Disk.place_of_sameShape` — paths lead to the same places in trees of one shape.
-/

namespace ModuleMove

namespace Disk

/-! ## §1. Trees of one shape. -/

/-- The same places hold directories, and the same hold files. -/
def SameShape (d e : Disk) : Prop :=
  e.here = d.here ∧
    ∀ ks, (e.top.find? ks).map Node.isDirectory = (d.top.find? ks).map Node.isDirectory

theorem SameShape.refl (d : Disk) : d.SameShape d := ⟨rfl, fun _ => rfl⟩

theorem SameShape.trans {d e f : Disk} (h : d.SameShape e) (h' : e.SameShape f) :
    d.SameShape f :=
  ⟨h'.1.trans h.1, fun ks => (h'.2 ks).trans (h.2 ks)⟩

theorem place_of_follow {t u : Node}
    (h : ∀ ks, (u.find? ks).map Node.isDirectory = (t.find? ks).map Node.isDirectory)
    {place : List String} {n m : Node} (hn : t.find? place = some n)
    (hm : u.find? place = some m) (ss : List String) :
    (follow u place m ss).map (·.1) = (follow t place n ss).map (·.1) := by
  induction ss generalizing place n m with
  | nil => rfl
  | cons s ss ih =>
    have hkind : m.isDirectory = n.isDirectory := by
      have := h place
      rw [hn, hm] at this
      exact Option.some.inj this
    -- both are files or both are directories, so that both ways end or both go on
    cases n with
    | file c =>
      cases m with
      | file x => rfl
      | directory fs => cases hkind
    | directory es =>
      cases m with
      | file x => cases hkind
      | directory fs =>
        rw [follow_cons, follow_cons t, follow_step hm, follow_step hn]
        have hnext := h (stepPlace place s)
        cases hu : u.find? (stepPlace place s) with
        | none =>
          cases ht : t.find? (stepPlace place s) with
          | none => rfl
          | some k => rw [hu, ht] at hnext; cases hnext
        | some j =>
          cases ht : t.find? (stepPlace place s) with
          | none => rw [hu, ht] at hnext; cases hnext
          | some k => exact ih ht hu

/-- **Paths lead to the same places in trees of one shape.** -/
theorem place_of_sameShape {d e : Disk} (h : d.SameShape e) (p : Path) :
    (e.locate p).map (·.1) = (d.locate p).map (·.1) := by
  unfold locate
  split
  · rfl
  · unfold followFrom
    have hs : e.startOf p = d.startOf p := by
      unfold startOf
      rw [h.1]
    have hk := h.2 (d.startOf p)
    rw [hs]
    cases hu : e.top.find? (d.startOf p) with
    | none =>
      cases ht : d.top.find? (d.startOf p) with
      | none => rfl
      | some k => rw [hu, ht] at hk; cases hk
    | some j =>
      cases ht : d.top.find? (d.startOf p) with
      | none => rw [hu, ht] at hk; cases hk
      | some k => exact place_of_follow h.2 ht hu _

theorem exists_locate_of_sameShape {d e : Disk} (h : d.SameShape e) {p : Path} {pl : List String}
    {n : Node} (hp : e.locate p = .ok (pl, n)) : ∃ m, d.locate p = .ok (pl, m) := by
  have hpl := place_of_sameShape h p
  rw [hp] at hpl
  cases hd : d.locate p with
  | error x => rw [hd] at hpl; cases hpl
  | ok r =>
    rw [hd] at hpl
    exact ⟨r.2, by rw [show pl = r.1 from Except.ok.inj hpl]⟩

/-- What is seen at the place of a file is what is read there. -/
theorem locate_of_sameShape {d e : Disk} (h : d.SameShape e) {p : Path} {pl : List String}
    {n : Node} {c : Content} (hp : d.locate p = .ok (pl, n))
    (hc : e.top.look? pl = some (some c)) : e.locate p = .ok (pl, .file c) := by
  have hpl := place_of_sameShape h p
  rw [hp] at hpl
  cases he : e.locate p with
  | error x => rw [he] at hpl; cases hpl
  | ok r =>
    obtain ⟨ql, m⟩ := r
    rw [he] at hpl
    have hql : ql = pl := Except.ok.inj hpl
    subst hql
    have hm := find?_of_locate he
    rw [Node.look?_eq_file.1 hc] at hm
    cases hm
    rfl

/-! ## §2. Writing. -/

/-- **A file that is there can be written**: the disk keeps its shape, the new text is seen at the
    place of the file, and elsewhere what was seen before. -/
theorem write_of_locate {d : Disk} (hd : d.WellFormed) {p : Path} {pl : List String}
    {c : Content} (h : d.locate p = .ok (pl, .file c)) (t : String) :
    ∃ e, d.write p t = .ok e ∧ e.WellFormed ∧ d.SameShape e ∧
      ∀ ks, e.top.look? ks = if ks = pl then some (some (.text t)) else d.top.look? ks := by
  obtain ⟨dir, name, es, rfl, hname, hdir, hes⟩ := nameAt_of_locate hd h
  have hfile := find?_of_locate h
  obtain ⟨top, htop, hwf, hlook⟩ := Node.exists_overwritten hd.tree hes hfile (.text t)
  -- a file takes the place of a file, so that the shape is kept
  have hshape : ∀ ks, (top.find? ks).map Node.isDirectory
      = (d.top.find? ks).map Node.isDirectory := by
    intro ks
    rw [Node.map_isDirectory_find?, Node.map_isDirectory_find?, hlook ks]
    split
    · rename_i hks
      rw [hks, Node.look?_eq_file.2 hfile]
      rfl
    · rfl
  refine ⟨{ d with top := top, deeds := .wrote p t :: d.deeds }, ?_, ⟨hwf, ?_⟩, ⟨rfl, hshape⟩,
    hlook⟩
  · unfold write
    rw [hname]
    have hat : d.at? (dir ++ [name]) = some (.file c) := hfile
    simp only [hat]
    rw [if_neg (by rw [hdir]; decide)]
    unfold alter remember
    rw [htop]
    rfl
  · -- the working directory is still one
    obtain ⟨hs, hhere⟩ := hd.here
    have hkind := hshape d.here
    rw [hhere, Option.map_some, Option.map_eq_some_iff] at hkind
    obtain ⟨n, hn, hk⟩ := hkind
    cases n with
    | file x => cases hk
    | directory fs => exact ⟨fs, hn⟩

end Disk

end ModuleMove
