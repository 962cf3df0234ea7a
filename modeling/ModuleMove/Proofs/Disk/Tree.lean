import ModuleMove.Disk.Node
import ModuleMove.Proofs.Path.Components

/-!
# TREES — what a change at one place does to a tree

A tree of files and directories is known by what is seen at each place: nothing, a directory, or
a file with its content.  A change at one place changes what is seen there and below, and nothing
else.

Main statements:
  * `Node.find?_alterAt_append` — what is at the changed place and below.
  * `Node.look?_alterAt_of_not_prefix` — everywhere else the same is seen as before.
  * `Node.exists_altered` — both together, for something else at a place in a directory.
-/

namespace ModuleMove.Node

/-! ## §1. Well-formed trees. -/

mutual

/-- The entries of each directory have names, and each its own. -/
def WellFormed : Node → Prop
  | .file _ => True
  | .directory es => (es.map (·.1)).Nodup ∧ AllWellFormed es

/-- The entries have names, and what they list is well formed. -/
def AllWellFormed : List (String × Node) → Prop
  | [] => True
  | (k, n) :: es => Path.IsName k ∧ n.WellFormed ∧ AllWellFormed es

end

theorem allWellFormed_iff {es : List (String × Node)} :
    AllWellFormed es ↔ ∀ e ∈ es, Path.IsName e.1 ∧ e.2.WellFormed := by
  induction es with
  | nil => simp [AllWellFormed]
  | cons e es ih =>
    obtain ⟨k, n⟩ := e
    rw [AllWellFormed, ih, List.forall_mem_cons, and_assoc]

theorem mem_of_child? {k : String} {n : Node} {es : List (String × Node)}
    (h : child? k es = some n) : (k, n) ∈ es := by
  induction es with
  | nil => cases h
  | cons e es ih =>
    obtain ⟨j, m⟩ := e
    rw [child?] at h
    split at h
    · rename_i hj
      cases h
      rw [hj]
      exact List.mem_cons_self ..
    · exact List.mem_cons_of_mem _ (ih h)

theorem child?_of_mem {k : String} {n : Node} {es : List (String × Node)} (h : (k, n) ∈ es)
    (hd : (es.map (·.1)).Nodup) : child? k es = some n := by
  induction es with
  | nil => cases h
  | cons e es ih =>
    obtain ⟨j, m⟩ := e
    rw [List.map_cons, List.nodup_cons] at hd
    rw [child?]
    rcases List.mem_cons.1 h with he | h
    · cases he
      rw [if_pos rfl]
    · rw [if_neg, ih h hd.2]
      rintro rfl
      exact hd.1 (List.mem_map.2 ⟨_, h, rfl⟩)

theorem WellFormed.child {n m : Node} {k : String} (hn : n.WellFormed)
    (h : child? k n.entries = some m) : m.WellFormed := by
  cases n with
  | file c => cases h
  | directory es =>
    rw [WellFormed, allWellFormed_iff] at hn
    exact (hn.2 _ (mem_of_child? h)).2

/-! ## §2. Finding. -/

theorem find?_cons (k : String) (ks : List String) (n : Node) :
    n.find? (k :: ks) = (child? k n.entries).bind (find? ks) := rfl

theorem find?_append (a b : List String) (n : Node) :
    n.find? (a ++ b) = (n.find? a).bind (find? b) := by
  induction a generalizing n with
  | nil => rfl
  | cons k a ih =>
    rw [List.cons_append, find?_cons, find?_cons, Option.bind_assoc]
    exact Option.bind_congr fun m _ => ih m

theorem WellFormed.find? {n m : Node} {ks : List String} (hn : n.WellFormed)
    (h : n.find? ks = some m) : m.WellFormed := by
  induction ks generalizing n with
  | nil =>
    cases h
    exact hn
  | cons k ks ih =>
    rw [find?_cons] at h
    obtain ⟨c, hc, h⟩ := Option.bind_eq_some_iff.1 h
    exact ih (hn.child hc) h

/-- The way to what is found goes by names. -/
theorem WellFormed.isName {n m : Node} {ks : List String} (hn : n.WellFormed)
    (h : n.find? ks = some m) : ∀ k ∈ ks, Path.IsName k := by
  induction ks generalizing n with
  | nil => simp
  | cons j ks ih =>
    rw [find?_cons] at h
    obtain ⟨x, hx, hm⟩ := Option.bind_eq_some_iff.1 h
    rw [List.forall_mem_cons]
    refine ⟨?_, ih (hn.child hx) hm⟩
    cases n with
    | file c => cases hx
    | directory es =>
      rw [WellFormed, allWellFormed_iff] at hn
      exact (hn.2 _ (mem_of_child? hx)).1

/-- What something is found below is a directory. -/
theorem isDirectory_of_find?_append {n m : Node} {a : List String} {k : String} {b : List String}
    (h : n.find? (a ++ k :: b) = some m) :
    ∃ es, n.find? a = some (.directory es) ∧ ∃ c, child? k es = some c ∧ c.find? b = some m := by
  rw [find?_append] at h
  obtain ⟨p, hp, h⟩ := Option.bind_eq_some_iff.1 h
  rw [find?_cons] at h
  obtain ⟨c, hc, hm⟩ := Option.bind_eq_some_iff.1 h
  cases p with
  | file x => cases hc
  | directory es => exact ⟨es, hp, c, hc, hm⟩

/-! ## §3. Seeing. -/

/-- The content of a file; a directory has none. -/
def content? : Node → Option Content
  | file c => some c
  | directory _ => none

/-- What is seen at a place: nothing, a directory, or the content of a file. -/
def look? (ks : List String) (n : Node) : Option (Option Content) := (n.find? ks).map content?

theorem look?_eq_file {ks : List String} {n : Node} {c : Content} :
    n.look? ks = some (some c) ↔ n.find? ks = some (.file c) := by
  unfold look?
  rw [Option.map_eq_some_iff]
  constructor
  · rintro ⟨m, hm, hc⟩
    cases m with
    | file x =>
      cases hc
      exact hm
    | directory es => cases hc
  · intro h
    exact ⟨_, h, rfl⟩

theorem look?_eq_directory {ks : List String} {n : Node} :
    n.look? ks = some none ↔ ∃ es, n.find? ks = some (.directory es) := by
  unfold look?
  rw [Option.map_eq_some_iff]
  constructor
  · rintro ⟨m, hm, hc⟩
    cases m with
    | file x => cases hc
    | directory es => exact ⟨es, hm⟩
  · rintro ⟨es, h⟩
    exact ⟨_, h, rfl⟩

theorem map_isDirectory_find? (ks : List String) (n : Node) :
    (n.find? ks).map isDirectory = (n.look? ks).map Option.isNone := by
  have hfun : Option.isNone ∘ content? = isDirectory := by
    funext m
    cases m <;> rfl
  rw [look?, Option.map_map, hfun]

theorem look?_eq_none {ks : List String} {n : Node} : n.look? ks = none ↔ n.find? ks = none :=
  Option.map_eq_none_iff

/-! ## §4. Changing. -/

theorem alterAt_cons_directory (f : Option Node → Option Node) (k : String) (ks : List String)
    (es : List (String × Node)) :
    alterAt f (k :: ks) (some (directory es)) = some (directory (alterEntry k (alterAt f ks) es)) :=
  rfl

theorem alterAt_cons_file (f : Option Node → Option Node) (k : String) (ks : List String)
    (c : Content) : alterAt f (k :: ks) (some (file c)) = some (file c) := rfl

/-- **What is at a changed place and below is what the change puts there**, if the place is in a
    directory. -/
theorem find?_alterAt_append {f : Option Node → Option Node} {n : Node} {a : List String}
    {es : List (String × Node)} (k : String) (b : List String) (hn : n.WellFormed)
    (ha : n.find? a = some (.directory es)) :
    (alterAt f (a ++ [k]) (some n)).bind (find? (a ++ k :: b))
      = (f (n.find? (a ++ [k]))).bind (find? b) := by
  induction a generalizing n with
  | nil =>
    cases ha
    rw [WellFormed] at hn
    show (child? k (alterEntry k (alterAt f []) es)).bind (find? b) = _
    rw [child?_alterEntry_self k _ es hn.1]
    show (f (child? k es)).bind (find? b) = (f ((child? k es).bind some)).bind (find? b)
    rw [Option.bind_fun_some]
  | cons j a ih =>
    rw [find?_cons] at ha
    obtain ⟨m, hm, ham⟩ := Option.bind_eq_some_iff.1 ha
    cases n with
    | file c => cases hm
    | directory ds =>
      have hw := hn
      rw [WellFormed] at hw
      show (child? j (alterEntry j (alterAt f (a ++ [k])) ds)).bind (find? (a ++ k :: b)) = _
      rw [child?_alterEntry_self j _ ds hw.1]
      have hm : child? j ds = some m := hm
      rw [hm, ih (hn.child hm) ham]
      show _ = (f ((child? j ds).bind (find? (a ++ [k])))).bind _
      rw [hm]
      rfl

/-- **Where a change is neither at the place nor above it, the same is seen as before.** -/
theorem look?_alterAt_of_not_prefix {f : Option Node → Option Node} {ks q : List String}
    {n : Node} (hn : n.WellFormed) (h : ¬ ks <+: q) :
    (alterAt f ks (some n)).bind (look? q) = n.look? q := by
  induction ks generalizing n q with
  | nil => exact absurd (List.nil_prefix ..) h
  | cons k ks ih =>
    cases n with
    | file c =>
      rw [alterAt_cons_file]
      rfl
    | directory es =>
      rw [alterAt_cons_directory]
      cases q with
      | nil => rfl
      | cons j q =>
        show ((child? j (alterEntry k (alterAt f ks) es)).bind (find? q)).map content?
          = ((child? j es).bind (find? q)).map content?
        by_cases hjk : j = k
        · subst hjk
          have hks : ¬ ks <+: q := fun hp => h (List.cons_prefix_cons.2 ⟨rfl, hp⟩)
          have hw := hn
          rw [WellFormed] at hw
          rw [child?_alterEntry_self j _ es hw.1]
          cases hc : child? j es with
          | none =>
            -- nothing is put where the way does not lead
            cases ks with
            | nil => exact absurd (List.nil_prefix ..) hks
            | cons i ks => rfl
          | some m =>
            have hm : m.WellFormed := (allWellFormed_iff.1 hw.2 _ (mem_of_child? hc)).2
            rw [Option.map_bind, Option.map_bind]
            exact ih hm hks
        · rw [child?_alterEntry_of_ne _ es hjk]

/-! ## §5. Changed trees are well formed. -/

theorem mem_alterEntry {k : String} {f : Option Node → Option Node} {es : List (String × Node)}
    {e : String × Node} (h : e ∈ alterEntry k f es) : e ∈ es ∨ e.1 = k := by
  induction es with
  | nil =>
    rw [alterEntry, Option.mem_toList, Option.map_eq_some_iff] at h
    obtain ⟨m, -, rfl⟩ := h
    exact .inr rfl
  | cons d es ih =>
    obtain ⟨j, n⟩ := d
    rw [alterEntry] at h
    split at h
    · rename_i hj
      rcases List.mem_append.1 h with h | h
      · rw [Option.mem_toList, Option.map_eq_some_iff] at h
        obtain ⟨m, -, rfl⟩ := h
        exact .inr hj
      · exact .inl (List.mem_cons_of_mem _ h)
    · rcases List.mem_cons.1 h with rfl | h
      · exact .inl (List.mem_cons_self ..)
      · exact (ih h).imp_left (List.mem_cons_of_mem _)

theorem nodup_alterEntry {k : String} {f : Option Node → Option Node}
    {es : List (String × Node)} (h : (es.map (·.1)).Nodup) :
    ((alterEntry k f es).map (·.1)).Nodup := by
  induction es with
  | nil => cases hf : f none <;> simp [alterEntry, hf]
  | cons d es ih =>
    obtain ⟨j, n⟩ := d
    rw [List.map_cons, List.nodup_cons] at h
    rw [alterEntry]
    split
    · cases f (some n) with
      | none => exact h.2
      | some m => exact List.nodup_cons.2 h
    · rename_i hj
      rw [List.map_cons, List.nodup_cons]
      refine ⟨?_, ih h.2⟩
      intro hm
      obtain ⟨e, he, hej⟩ := List.mem_map.1 hm
      rcases mem_alterEntry he with he | he
      · exact h.1 (List.mem_map.2 ⟨e, he, hej⟩)
      · exact hj (hej.symm.trans he)

/-- A change that keeps what it meets well formed keeps the tree well formed. -/
theorem wellFormed_alterAt {f : Option Node → Option Node}
    (hf : ∀ o, (∀ n ∈ o, n.WellFormed) → ∀ m ∈ f o, m.WellFormed) {ks : List String}
    (hks : ∀ k ∈ ks, Path.IsName k) {o : Option Node} (ho : ∀ n ∈ o, n.WellFormed) :
    ∀ m ∈ alterAt f ks o, m.WellFormed := by
  induction ks generalizing o with
  | nil => exact hf o ho
  | cons k ks ih =>
    cases o with
    | none => exact ho
    | some n =>
      cases n with
      | file c => exact ho
      | directory es =>
        have hn := ho _ rfl
        rw [WellFormed] at hn
        rintro m ⟨⟩
        rw [WellFormed]
        refine ⟨nodup_alterEntry hn.1, allWellFormed_iff.2 ?_⟩
        have hall := allWellFormed_iff.1 hn.2
        have hnd := nodup_alterEntry (k := k) (f := alterAt f ks) hn.1
        intro e he
        -- the entry on the way has been changed further down, and the others are as they were
        by_cases hek : e.1 = k
        · obtain ⟨j, x⟩ := e
          change j = k at hek
          subst hek
          refine ⟨hks j (List.mem_cons_self ..), ?_⟩
          have hx := child?_of_mem he hnd
          rw [child?_alterEntry_self j _ es hn.1] at hx
          refine ih (fun i hi => hks i (List.mem_cons_of_mem _ hi)) ?_ x hx
          intro y hy
          exact (hall _ (mem_of_child? hy)).2
        · exact hall e ((mem_alterEntry he).resolve_right hek)

/-! ## §6. Putting something else at a place. -/

/-- A way of at least one name leaves a tree at its root. -/
theorem exists_alterAt (f : Option Node → Option Node) (dir : List String) (name : String)
    (n : Node) : ∃ m, alterAt f (dir ++ [name]) (some n) = some m := by
  cases dir with
  | nil => cases n <;> exact ⟨_, rfl⟩
  | cons k ks => cases n <;> exact ⟨_, rfl⟩

/-- **What is seen when something else is put at a place in a directory**: at the place and below,
    what is put there; everywhere else, what was seen before. -/
theorem exists_altered {n : Node} {dir : List String} {name : String}
    {es : List (String × Node)} {x : Option Node} (hn : n.WellFormed)
    (hdir : n.find? dir = some (.directory es)) (hname : Path.IsName name)
    (hx : ∀ m ∈ x, m.WellFormed) :
    ∃ m, alterAt (fun _ => x) (dir ++ [name]) (some n) = some m ∧ m.WellFormed ∧
      (∀ rest, m.look? (dir ++ [name] ++ rest) = x.bind (look? rest)) ∧
      ∀ ks, ¬ dir ++ [name] <+: ks → m.look? ks = n.look? ks := by
  obtain ⟨m, hm⟩ := exists_alterAt (fun _ => x) dir name n
  refine ⟨m, hm, ?_, fun rest => ?_, fun ks hks => ?_⟩
  · have hnames : ∀ k ∈ dir ++ [name], Path.IsName k := by
      intro k hk
      rcases List.mem_append.1 hk with hk | hk
      · exact hn.isName hdir k hk
      · rw [List.mem_singleton.1 hk]
        exact hname
    refine wellFormed_alterAt (f := fun _ => x) (fun _ _ => hx) hnames (o := some n) ?_ m hm
    rintro k ⟨⟩
    exact hn
  · have hbelow := find?_alterAt_append (f := fun _ => x) name rest hn hdir
    rw [hm, Option.bind_some, List.append_cons] at hbelow
    rw [look?, hbelow, Option.map_bind]
    rfl
  · have haside := look?_alterAt_of_not_prefix (f := fun _ => x) hn hks
    rw [hm, Option.bind_some] at haside
    exact haside

/-- A file that gets another content is seen with it, and nothing else is seen to change. -/
theorem exists_overwritten {n : Node} {dir : List String} {name : String} {c : Content}
    {es : List (String × Node)} (hn : n.WellFormed) (hdir : n.find? dir = some (.directory es))
    (h : n.find? (dir ++ [name]) = some (.file c)) (x : Content) :
    ∃ m, alterAt (fun _ => some (.file x)) (dir ++ [name]) (some n) = some m ∧ m.WellFormed ∧
      ∀ ks, m.look? ks = if ks = dir ++ [name] then some (some x) else n.look? ks := by
  have hx : ∀ m ∈ some (Node.file x), m.WellFormed := by
    rintro k ⟨⟩
    rw [WellFormed]
    trivial
  obtain ⟨m, hm, hwf, hbelow, haside⟩ :=
    exists_altered hn hdir (hn.isName h name (by simp)) hx
  refine ⟨m, hm, hwf, fun ks => ?_⟩
  -- at the place there is the new file, and beside it nothing has changed
  by_cases hp : dir ++ [name] <+: ks
  · obtain ⟨rest, rfl⟩ := hp
    rw [hbelow]
    cases rest with
    | nil =>
      rw [if_pos (List.append_nil _)]
      rfl
    | cons k rest =>
      -- nothing is below a file, neither before nor after
      have hnone : n.look? (dir ++ [name] ++ k :: rest) = none := by
        rw [look?, find?_append, h]
        rfl
      rw [if_neg (by simp), hnone]
      rfl
  · have hne : ks ≠ dir ++ [name] := by
      rintro rfl
      exact hp (List.prefix_refl _)
    rw [if_neg hne, haside ks hp]

end ModuleMove.Node
