import ModuleMove.Proofs.Project.Probe
import ModuleMove.Proofs.Unit.Straight

/-!
# CARRIED PLACES — what a unit takes along keeps its end

A file takes along what begins with its name in its directory, a directory what lies in it.  Both
change the beginning of a place, and an attempt at a module path changes its end.  So it does not
matter whether a place is taken along first or tried first.

Main statements:
  * `Course.Carried.names` — taking along commutes with attempts.
  * `MovedUnit.straight_relocate` — a straight path is taken to a straight path.
-/

namespace ModuleMove

open ModuleMove.Path

/-! ## §1. Taking names along. -/

/-- The way of a unit, by names: its kind, the directory that it leaves and its name there, and the
    directory that it enters and its name there. -/
structure Course where
  /-- The kind of the unit. -/
  style : UnitStyle
  /-- The names on the way to the directory that it leaves. -/
  oldParent : List String
  /-- Its name there. -/
  name : String
  /-- The names on the way to the directory that it enters. -/
  newParent : List String
  /-- Its name there. -/
  newName : String

namespace Course

/-- The way back. -/
def back (w : Course) : Course := ⟨w.style, w.newParent, w.newName, w.oldParent, w.name⟩

/-- What is taken along, and to where: the unit's name gives way to the new one, and what follows it
    is kept. -/
inductive Carried (w : Course) : List String → List String → Prop where
  /-- Beside a file, the rest of a name is kept. -/
  | file (hs : w.style = .file) (rest : String) :
      Carried w (w.oldParent ++ [w.name ++ rest]) (w.newParent ++ [w.newName ++ rest])
  /-- In a directory, all names are kept. -/
  | directory (hs : w.style = .directory) (rest : List String) :
      Carried w (w.oldParent ++ w.name :: rest) (w.newParent ++ w.newName :: rest)

variable {w : Course} {ks js is : List String}

theorem carried_iff_of_file (hs : w.style = .file) : w.Carried ks js ↔
    ∃ rest, ks = w.oldParent ++ [w.name ++ rest] ∧ js = w.newParent ++ [w.newName ++ rest] := by
  constructor
  · rintro (⟨-, rest⟩ | ⟨hd, -⟩)
    · exact ⟨rest, rfl, rfl⟩
    · rw [hs] at hd
      cases hd
  · rintro ⟨rest, rfl, rfl⟩
    exact .file hs rest

theorem carried_iff_of_directory (hs : w.style = .directory) : w.Carried ks js ↔
    ∃ rest, ks = w.oldParent ++ w.name :: rest ∧ js = w.newParent ++ w.newName :: rest := by
  constructor
  · rintro (⟨hf, -⟩ | ⟨-, rest⟩)
    · rw [hs] at hf
      cases hf
    · exact ⟨rest, rfl, rfl⟩
  · rintro ⟨rest, rfl, rfl⟩
    exact .directory hs rest

/-- What has been taken along is taken back. -/
theorem Carried.back (h : w.Carried ks js) : w.back.Carried js ks := by
  rcases h with ⟨hs, rest⟩ | ⟨hs, rest⟩
  · exact .file (w := w.back) hs rest
  · exact .directory (w := w.back) hs rest

theorem Carried.ne_nil (h : w.Carried ks js) : js ≠ [] := by
  rcases h with ⟨-, rest⟩ | ⟨-, rest⟩ <;> simp

/-- An attempt that keeps the beginning of a name adds to its end, whatever the beginning is. -/
theorem names_of_file {as bs : List String} {n m r r' : String} (a : Attempt)
    (h : a.names (as ++ [n ++ r]) = as ++ [n ++ r']) :
    bs ++ [m ++ r'] = a.names (bs ++ [m ++ r]) := by
  cases a with
  | bare =>
    have h : as ++ [n ++ r] = as ++ [n ++ r'] := h
    have heq := List.cons.inj (List.append_cancel_left h)
    rw [← (String.append_right_inj _).1 heq.1]
    rfl
  | extended ext =>
    rw [Attempt.names_extended] at h ⊢
    have heq := List.cons.inj (List.append_cancel_left h)
    rw [String.append_assoc] at heq
    rw [← (String.append_right_inj _).1 heq.1, String.append_assoc]
  | index ext =>
    -- an index file lies below a place, and nothing below a file is taken along with it
    have hlen := congrArg List.length h
    unfold Attempt.names at hlen
    simp at hlen

/-- An attempt that keeps the beginning of a place adds to its end, whatever the beginning is. -/
theorem names_of_directory {as bs r r' : List String} {n m : String} (a : Attempt)
    (h : a.names (as ++ n :: r) = as ++ n :: r') :
    bs ++ m :: r' = a.names (bs ++ m :: r) := by
  cases a with
  | bare =>
    have h : as ++ n :: r = as ++ n :: r' := h
    rw [← (List.cons.inj (List.append_cancel_left h)).2]
    rfl
  | extended ext =>
    rcases List.eq_nil_or_concat' r with rfl | ⟨r, l, rfl⟩
    · -- an extension behind the directory's own name leads out of it
      rw [Attempt.names_extended] at h
      have hlen := congrArg String.length (List.cons.inj (List.append_cancel_left h)).1
      simp at hlen
    · rw [← List.cons_append, ← List.append_assoc] at h ⊢
      rw [Attempt.names_extended, List.append_assoc, List.cons_append] at h ⊢
      rw [← (List.cons.inj (List.append_cancel_left h)).2]
  | index ext =>
    have h : as ++ n :: r ++ ["index." ++ ext] = as ++ n :: r' := h
    rw [List.append_assoc, List.cons_append] at h
    rw [← (List.cons.inj (List.append_cancel_left h)).2]
    show _ = bs ++ m :: r ++ ["index." ++ ext]
    rw [List.append_assoc, List.cons_append]

/-- **Taking along commutes with attempts**, where both a place and an attempt at it are taken
    along. -/
theorem Carried.names (a : Attempt) (h : w.Carried ks js) (h' : w.Carried (a.names ks) is) :
    is = a.names js := by
  cases hs : w.style with
  | file =>
    obtain ⟨r, rfl, rfl⟩ := (carried_iff_of_file hs).1 h
    obtain ⟨r', hr, rfl⟩ := (carried_iff_of_file hs).1 h'
    exact names_of_file a hr
  | directory =>
    obtain ⟨r, rfl, rfl⟩ := (carried_iff_of_directory hs).1 h
    obtain ⟨r', hr, rfl⟩ := (carried_iff_of_directory hs).1 h'
    exact names_of_directory a hr

/-- A place is taken to one place. -/
theorem Carried.unique (h : w.Carried ks js) (h' : w.Carried ks is) : is = js :=
  h.names .bare h'

end Course

/-! ## §2. Taking paths along. -/

namespace MovedUnit

/-- The way of a unit. -/
def course (u : MovedUnit) : Course :=
  ⟨u.style, u.oldParent.names, u.name, u.newParent.names, u.newName⟩

/-- The places of a unit are written by their names. -/
structure IsStraight (u : MovedUnit) : Prop where
  /-- The directory that it leaves. -/
  leaves : u.oldParent.Straight u.oldParent.names
  /-- The directory that it enters. -/
  enters : u.newParent.Straight u.newParent.names
  /-- A directory itself. -/
  old : u.style = .directory → u.old.Straight (u.oldParent.names ++ [u.name])
  /-- It gets a name. -/
  newName : IsName u.newName

variable {u : MovedUnit} {p m : Path} {ks : List String}

/-- A unit is written by its names if its path and the two directories are. -/
theorem isStraight_of_names {d : Disk} {p : Project} {old new : Path} {δ : Delta}
    {as gs : List String} {a : String} (hold : old.Straight (as ++ [a]))
    (hleave : (make d p old new δ).oldParent.Straight as)
    (henter : (make d p old new δ).newParent.Straight gs)
    (hn : IsName (make d p old new δ).newName) : (make d p old new δ).IsStraight := by
  refine ⟨hleave.names_eq ▸ hleave, henter.names_eq ▸ henter, fun hs => ?_, hn⟩
  -- a directory is called by the last name of its path
  have hname : (make d p old new δ).name = a := by
    show nameOf (make d p old new δ).style p.extensions old = a
    unfold nameOf
    rw [hs, Preparation.fileName?_of_goesOn hold.goesOn]
    rfl
  rw [hname, hleave.names_eq]
  exact hold

theorem IsStraight.newModule (hu : u.IsStraight) :
    u.newModule.Straight (u.newParent.names ++ [u.newName]) :=
  hu.enters.join hu.newName

/-- **A straight path is taken to a straight path.** -/
theorem straight_relocate (hu : u.IsStraight) (hp : p.Straight ks) (h : u.relocate p = some m) :
    ∃ js, m.Straight js ∧ u.course.Carried ks js := by
  cases hs : u.style with
  | file =>
    obtain ⟨f, t, hf, hc, ht, rfl⟩ := relocate_of_file hs h
    obtain ⟨rest, hrest, hnew⟩ := exists_rest_of_relocatedName? ht
    refine ⟨_, hu.enters.join (isName_relocatedName? hu.newName hf ht), ?_⟩
    rw [hp.eq_append hu.leaves [f] hc, hrest, hnew]
    exact .file (w := u.course) hs rest
  | directory =>
    obtain ⟨cs, hc, rfl⟩ := relocate_of_directory hs h
    -- what lies in a directory has the names of the directory in front
    have hpre : u.oldParent.names ++ [u.name] <+: ks := by
      rw [← hp.isUnder_iff (hu.old hs)]
      unfold isUnder
      rw [List.isPrefixOf_iff_prefix, hc]
      exact List.prefix_append ..
    obtain ⟨rest, rfl⟩ := hpre
    have hcs : cs = rest.map Component.name := by
      rw [hp.components, (hu.old hs).components, List.map_append, ← List.cons_append] at hc
      exact (List.append_cancel_left hc).symm
    have hrest : ∀ s ∈ rest, IsName s := fun s hs => hp.1 s (List.mem_append_right _ hs)
    refine ⟨u.newParent.names ++ [u.newName] ++ rest, ?_, ?_⟩
    · by_cases h0 : rest = []
      · rw [hcs, h0, List.map_nil, if_pos rfl, List.append_nil]
        exact hu.newModule
      · rw [hcs, if_neg (by simpa using h0), textsOf_map_name]
        exact hu.newModule.join_names hrest h0
    · rw [List.append_assoc, List.append_assoc]
      exact .directory (w := u.course) hs rest

end MovedUnit

end ModuleMove
