import ModuleMove.Grammar.Blank
import ModuleMove.Source.Lawful

/-!
# READERS — reading a source text from left to right, and making nodes of it

A reader takes a cursor and either finds something, with the nodes that it makes, and says where it
stopped, or is stuck.  Both outcomes tell how far into the text the reader had to look (`reach`), so
that after a failure the first place at which the text cannot be continued is known.

Reading never goes back, and nodes stand where they have been read.  A reader carries the proof of
that, so that what is put together from readers needs none.

Main definitions:
  * `Reader` — with the combinators of a parser that may go back and try something else.
  * `Reader.nodeOf`, `Reader.leafOf` — what is read becomes one node.
  * `Reader.grown` — what has been read becomes part of a larger node, as far as it goes on.
-/

namespace ModuleMove.Grammar

open Cursor SyntaxNode

/-! ## §1. Outcomes. -/

/-- The nodes stand in a row between two places of the text, and all below them are lawful. -/
def Laid (text : List Char) (low high : Nat) (ns : List SyntaxNode) : Prop :=
  InRow low high ns ∧ ∀ n ∈ ns, n.AllLawful text

/-- What comes of trying to read something. -/
inductive Outcome (α : Type) where
  /-- It was found, with the nodes that it makes, and reading goes on at `next`. -/
  | found (value : α) (nodes : List SyntaxNode) (next : Cursor) (reach : Nat)
  /-- It is not here; no attempt got past byte `reach`. -/
  | stuck (reach : Nat)

namespace Outcome

variable {α : Type}

/-- The outcome, if nodes have been found before it and byte `reach` has been looked at. -/
def after (nodes : List SyntaxNode) (reach : Nat) : Outcome α → Outcome α
  | found a ns n m => found a (nodes ++ ns) n (max reach m)
  | stuck m => stuck (max reach m)

/-- What has been found is further on in the text than `c`, and its nodes stand behind byte
    `low`. -/
def Sound (text : List Char) (c : Cursor) (low : Nat) : Outcome α → Prop
  | found _ ns n _ => c.LeadsTo n ∧ Laid text low n.offset ns
  | stuck _ => True

end Outcome

section

variable {text : List Char} {low mid high : Nat} {ns ms : List SyntaxNode} {n : SyntaxNode}

theorem laid_nil (h : low ≤ high) : Laid text low high [] := ⟨h, by simp⟩

theorem Laid.mono {low' : Nat} (h : Laid text low high ns) (hl : low' ≤ low) :
    Laid text low' high ns := ⟨h.1.mono hl (Nat.le_refl _), h.2⟩

theorem Laid.append (h : Laid text low mid ns) (h' : Laid text mid high ms) :
    Laid text low high (ns ++ ms) := by
  refine ⟨h.1.append h'.1, fun n hn => ?_⟩
  rcases List.mem_append.1 hn with hn | hn
  · exact h.2 n hn
  · exact h'.2 n hn

theorem laid_singleton (hlow : low ≤ n.span.start) (hn : n.span.start ≤ n.span.stop)
    (hhigh : n.span.stop ≤ high) (hall : n.AllLawful text) : Laid text low high [n] :=
  ⟨⟨hlow, hn, hhigh⟩, by simpa using hall⟩

theorem laid_map_withField {field : Option String} (hfield : field ≠ some "source")
    (h : Laid text low high ns) : Laid text low high (ns.map (withField field)) := by
  refine ⟨(inRow_map (f := withField field) fun _ => rfl).2 h.1, fun n hn => ?_⟩
  obtain ⟨m, hm, rfl⟩ := List.mem_map.1 hn
  exact allLawful_withField hfield (h.2 m hm)

variable {α : Type} {c d : Cursor} {o : Outcome α}

theorem Outcome.Sound.after {reach : Nat} (h : o.Sound text d mid) (hc : c.LeadsTo d)
    (hns : Laid text low mid ns) : (o.after ns reach).Sound text c low := by
  cases o with
  | stuck m => trivial
  | found a ms n m =>
    obtain ⟨hn, hms⟩ := h
    exact ⟨hc.trans hn, hns.append hms⟩

theorem isBoundary_of_leadsTo (h : LeadsTo ⟨0, text⟩ c) : IsBoundary text c.offset := by
  obtain ⟨a, htext, ha⟩ := exists_of_leadsTo h
  exact ⟨a, c.rest, htext, ha⟩

end

/-! ## §2. Readers. -/

/-- A way of reading an `α` from a place in a text. -/
structure Reader (α : Type) where
  /-- What comes of reading at a place. -/
  read : Cursor → Outcome α
  /-- What is found stands further on in the text, wherever the reader is tried. -/
  sound (text : List Char) (c : Cursor) (hc : LeadsTo ⟨0, text⟩ c) :
    (read c).Sound text c c.offset

namespace Reader

variable {α β : Type}

/-- Finds `a` without reading anything. -/
def done (a : α) : Reader α where
  read c := .found a [] c 0
  sound _ c _ := ⟨.refl c, laid_nil (Nat.le_refl _)⟩

/-- Is stuck wherever it is tried. -/
def stuck : Reader α where
  read c := .stuck c.offset
  sound _ _ _ := trivial

/-- Reads with `p`, then with the reader that `f` chooses. -/
def andThen (p : Reader α) (f : α → Reader β) : Reader β where
  read c :=
    match p.read c with
    | .stuck m => .stuck m
    | .found a ns n m => ((f a).read n).after ns m
  sound text c hc := by
    have hp := p.sound text c hc
    split
    · trivial
    · rename_i a ns n m h
      rw [h] at hp
      obtain ⟨hn, hns⟩ := hp
      exact ((f a).sound text n (hc.trans hn)).after hn hns

/-- Reads with `p`, or from the same place with `q` if `p` is stuck. -/
def orElse (p : Reader α) (q : Unit → Reader α) : Reader α where
  read c :=
    match p.read c with
    | .found a ns n m => .found a ns n m
    | .stuck m => ((q ()).read c).after [] m
  sound text c hc := by
    have hp := p.sound text c hc
    split
    · rename_i h
      rw [h] at hp
      exact hp
    · exact ((q ()).sound text c hc).after (.refl c) (laid_nil (Nat.le_refl _))

instance : Monad Reader where
  pure := done
  bind := andThen

instance : OrElse (Reader α) := ⟨orElse⟩

/-- The reader that `p` makes, made only when there is something to read. -/
def delay (p : Unit → Reader α) : Reader α where
  read c := (p ()).read c
  sound text c hc := (p ()).sound text c hc

/-- Looks at the present place. -/
def look (f : Cursor → α) : Reader α where
  read c := .found (f c) [] c 0
  sound _ c _ := ⟨.refl c, laid_nil (Nat.le_refl _)⟩

/-- Goes to a later place, if there is one, and gives what `f` says of it. -/
def step (f : Cursor → Option (α × Cursor))
    (hf : ∀ (c : Cursor) a n, f c = some (a, n) → c.LeadsTo n) : Reader α where
  read c :=
    match f c with
    | some (a, n) => .found a [] n 0
    | none => .stuck c.offset
  sound _ c _ := by
    split
    · rename_i a n h
      exact ⟨hf c a n h, laid_nil (hf c a n h).offset_le⟩
    · trivial

/-- Goes to the place that `f` makes of the present one. -/
def skip (f : Cursor → Cursor) (hf : ∀ c : Cursor, c.LeadsTo (f c)) : Reader Unit :=
  step (fun c => some ((), f c)) fun c _ n h => by
    cases h
    exact hf c

/-- Is stuck unless `b` holds. -/
def require (b : Bool) : Reader Unit := if b then done () else stuck

/-- Reads with `p` if that works, and nothing otherwise. -/
def optional (p : Reader α) : Reader (Option α) :=
  orElse (andThen p fun a => done (some a)) fun _ => done none

/-- Whether `p` would find something here; reads nothing. -/
def sees (p : Reader α) : Reader Bool := look fun c =>
  match p.read c with
  | .found .. => true
  | .stuck _ => false

/-- Reads with `p` without making nodes. -/
def bare (p : Reader α) : Reader α where
  read c :=
    match p.read c with
    | .found a _ n m => .found a [] n m
    | .stuck m => .stuck m
  sound text c hc := by
    have hp := p.sound text c hc
    split
    · rename_i h
      rw [h] at hp
      exact ⟨hp.1, laid_nil hp.1.offset_le⟩
    · trivial

/-! ## §3. Repetitions. -/

/-- At most `fuel` further finds of `p`; those so far are in `found`, and their nodes in `nodes`,
    both last first. -/
def manyFrom (p : Reader α) : Nat → Nat → List α → List SyntaxNode → Cursor → Outcome (List α)
  | 0, m, found, nodes, c => .found found.reverse nodes.reverse c m
  | fuel + 1, m, found, nodes, c =>
    match p.read c with
    | .stuck n => .found found.reverse nodes.reverse c (max m n)
    | .found a ns next n =>
      if next.offset ≤ c.offset then .found found.reverse nodes.reverse c (max m n)
      else manyFrom p fuel (max m n) (a :: found) (ns.reverse ++ nodes) next

theorem sound_manyFrom (p : Reader α) {text : List Char} {b c : Cursor} {fuel m : Nat}
    {found : List α} {nodes : List SyntaxNode} (hb : LeadsTo ⟨0, text⟩ b) (hc : b.LeadsTo c)
    (hnodes : Laid text b.offset c.offset nodes.reverse) :
    (manyFrom p fuel m found nodes c).Sound text b b.offset := by
  -- what has been found so far stands between `b` and `c`
  induction fuel generalizing m found nodes c with
  | zero => exact ⟨hc, hnodes⟩
  | succ fuel ih =>
    have hp := p.sound text c (hb.trans hc)
    unfold manyFrom
    split
    · exact ⟨hc, hnodes⟩
    · rename_i a ns next n h
      rw [h] at hp
      obtain ⟨hnext, hns⟩ := hp
      split
      · exact ⟨hc, hnodes⟩
      · refine ih (hc.trans hnext) ?_
        rw [List.reverse_append, List.reverse_reverse]
        exact hnodes.append hns

/-- Reads with `p` as often as it finds something and gets further. -/
def many (p : Reader α) : Reader (List α) where
  read c := manyFrom p c.rest.length 0 [] [] c
  sound _ c hc := sound_manyFrom p hc (.refl c) (laid_nil (Nat.le_refl _))

/-! ## §4. Nodes. -/

/-- Goes to the first character after blanks. -/
def overBlanks : Reader Unit := skip pastBlanks leadsTo_pastBlanks

/-- Makes one node of all that `p` reads right here; its kind depends on what is read. -/
def nodeHere (kind : α → String) (h : ∀ a, isPlain (kind a) = true) (p : Reader α) :
    Reader α where
  read c :=
    match p.read c with
    | .stuck m => .stuck m
    | .found a ns n m => .found a [⟨kind a, none, true, false, ⟨c.offset, n.offset⟩, ns⟩] n m
  sound text c hc := by
    have hp := p.sound text c hc
    split
    · trivial
    · rename_i a ns n m hread
      rw [hread] at hp
      obtain ⟨hn, hns⟩ := hp
      refine ⟨hn, laid_singleton (Nat.le_refl _) hn.offset_le (Nat.le_refl _)
        (allLawful_iff.2 ⟨?_, hns.2⟩)⟩
      exact lawful_of_plain (h a) rfl hns.1 (isBoundary_of_leadsTo hc)
        (isBoundary_of_leadsTo (hc.trans hn))

/-- Makes one node of all that `p` reads behind the blanks; its kind depends on what is read. -/
def nodeOf (kind : α → String) (h : ∀ a, isPlain (kind a) = true) (p : Reader α) : Reader α := do
  overBlanks
  nodeHere kind h p

/-- Makes one node of all that `p` reads behind the blanks. -/
def node (kind : String) (p : Reader α) (h : isPlain kind = true := by exact Eq.refl true) :
    Reader α :=
  nodeOf (fun _ => kind) (fun _ => h) p

/-- Makes an export statement of all that `p` reads behind the blanks, which has to begin like
    one. -/
def exportNode (p : Reader α) : Reader α := do
  overBlanks
  here
where
  /-- Makes an export statement of what is read right here. -/
  here : Reader α := {
    read := fun c =>
      match c.rest, p.read c with
      | x :: _, .found a ns n m =>
        if x == 'e' || x == '@' then
          .found a [⟨"export_statement", none, true, false, ⟨c.offset, n.offset⟩, ns⟩] n m
        else .stuck m
      | _, .stuck m => .stuck m
      | [], .found _ _ _ m => .stuck m
    sound := fun text c hc => by
      have hp := p.sound text c hc
      split
      · rename_i x r a ns n m hrest hread
        rw [hread] at hp
        obtain ⟨hn, hns⟩ := hp
        split
        · rename_i hx
          have hopens : opensExport text c.offset = true := by
            obtain ⟨a, rfl, ha⟩ := exists_of_leadsTo hc
            rw [opensExport, ← ha, partAtByte?_append, hrest]
            exact hx
          refine ⟨hn, laid_singleton (Nat.le_refl _) hn.offset_le (Nat.le_refl _)
            (allLawful_iff.2 ⟨?_, hns.2⟩)⟩
          exact lawful_of_export rfl rfl hopens hns.1 (isBoundary_of_leadsTo hc)
            (isBoundary_of_leadsTo (hc.trans hn))
        · trivial
      · trivial
      · trivial }

/-- Makes one node with nothing inside of all that `p` reads right here; its kind depends on what is
    read. -/
def leafHere (named : Bool) (kind : α → String) (h : ∀ a, isWord (kind a) = true)
    (p : Reader α) : Reader α where
  read c :=
    match p.read c with
    | .stuck m => .stuck m
    | .found a _ n m => .found a [⟨kind a, none, named, false, ⟨c.offset, n.offset⟩, []⟩] n m
  sound text c hc := by
    have hp := p.sound text c hc
    split
    · trivial
    · rename_i a ns n m hread
      rw [hread] at hp
      obtain ⟨hn, -⟩ := hp
      refine ⟨hn, laid_singleton (Nat.le_refl _) hn.offset_le (Nat.le_refl _)
        (allLawful_iff.2 ⟨?_, by simp⟩)⟩
      exact lawful_of_leaf (h a) rfl nofun hn.offset_le (isBoundary_of_leadsTo hc)
        (isBoundary_of_leadsTo (hc.trans hn))

/-- Makes one node with nothing inside of all that `p` reads behind the blanks; its kind depends on
    what is read. -/
def leafOf (kind : α → String) (h : ∀ a, isWord (kind a) = true) (p : Reader α) : Reader α := do
  overBlanks
  leafHere true kind h p

/-- Makes one node with nothing inside of all that `p` reads behind the blanks. -/
def leaf (kind : String) (p : Reader α) (h : isWord kind = true := by exact Eq.refl true) :
    Reader α :=
  leafOf (fun _ => kind) (fun _ => h) p

/-- Makes a piece of text of all that `p` reads behind the blanks. -/
def piece (kind : String) (p : Reader α) (h : isWord kind = true := by exact Eq.refl true) :
    Reader α := do
  overBlanks
  leafHere false (fun _ => kind) (fun _ => h) p

/-- One thing after another has been found exactly if each has. -/
theorem read_bind_eq_found {p : Reader α} {f : α → Reader β} {b : β} {ms : List SyntaxNode}
    {c n : Cursor} {m : Nat} (h : (p >>= f).read c = .found b ms n m) :
    ∃ a ns d i ns' j, p.read c = .found a ns d i ∧ (f a).read d = .found b ns' n j ∧
      ms = ns ++ ns' := by
  have h : (andThen p f).read c = .found b ms n m := h
  unfold andThen at h
  dsimp only at h
  split at h
  · cases h
  · rename_i a ns d i hp
    cases hf : (f a).read d with
    | stuck j =>
      rw [hf] at h
      cases h
    | found b' ns' e j =>
      rw [hf] at h
      cases h
      exact ⟨a, ns, d, i, ns', j, hp, hf, rfl⟩

/-- What is made into one node is of the kind. -/
theorem exists_of_nodeOf {kind : α → String} {hkind : ∀ a, isPlain (kind a) = true}
    {p : Reader α} {a : α} {ms : List SyntaxNode} {c n : Cursor} {m : Nat}
    (h : (nodeOf kind hkind p).read c = .found a ms n m) : ∃ b, ms = [b] ∧ b.kind = kind a := by
  obtain ⟨_, bs, d, _, ms', _, hblanks, hnode, rfl⟩ := read_bind_eq_found h
  have hbs : bs = [] := by
    cases hblanks
    rfl
  have hnode : (nodeHere kind hkind p).read d = _ := hnode
  simp only [nodeHere] at hnode
  split at hnode
  · cases hnode
  · cases hnode
    exact ⟨_, by rw [hbs]; rfl, rfl⟩

/-- The nodes that `p` makes become fields of the given name. -/
def asField (name : String) (p : Reader α)
    (h : (name == "source") = false := by exact Eq.refl false) : Reader α where
  read c :=
    match p.read c with
    | .stuck m => .stuck m
    | .found a ns n m => .found a (ns.map (withField (some name))) n m
  sound text c hc := by
    have hp := p.sound text c hc
    split
    · trivial
    · rename_i hread
      rw [hread] at hp
      exact ⟨hp.1, laid_map_withField (by simpa using h) hp.2⟩

/-! ## §5. Nodes that grow. -/

theorem isPlain_argumentsKind (template : Bool) :
    isPlain (if template then "template_string" else "arguments") = true := by
  cases template <;> decide

/-- Reads what stands behind a callee: a sign, types and the arguments, which may be a template. -/
def callTail (template : Bool) (sign types arguments : Reader Unit) : Reader Unit := do
  bare sign
  asField "type_arguments" types
  asField "arguments" (nodeOf (fun _ => if template then "template_string" else "arguments")
    (fun _ => isPlain_argumentsKind template) arguments)

end Reader

/-- How what has been read can become the first part of a larger node. -/
inductive Growth (α : Type) where
  /-- A node of the given kind, in which it has the given role; the reader reads the rest. -/
  | node (role : Option String) (kind : String) (rest : Reader α)
      (hrole : (role == some "source") = false := by exact Eq.refl false)
      (hkind : isPlain kind = true := by exact Eq.refl true)
  /-- A call, of which it is the callee. -/
  | call (value : α) (template : Bool) (sign types arguments : Reader Unit)

namespace Growth

variable {α β : Type}

/-- The kind of the larger node. -/
def kind : Growth α → String
  | node _ kind .. => kind
  | call .. => "call_expression"

/-- What the first part is to the larger node. -/
def role : Growth α → Option String
  | node role .. => role
  | call .. => some "function"

/-- Reads the rest of the larger node. -/
def rest : Growth α → Reader α
  | node _ _ rest .. => rest
  | call value template sign types arguments => do
    Reader.callTail template sign types arguments
    pure value

/-- The larger node, of which the first part has been read from byte `start` on. -/
def read (g : Growth α) (start : Nat) (first : SyntaxNode) (c : Cursor) :
    Option (α × SyntaxNode × Cursor) × Nat :=
  match g.rest.read c with
  | .stuck m => (none, m)
  | .found a ns n m =>
    let whole : SyntaxNode :=
      ⟨g.kind, none, true, false, ⟨start, n.offset⟩, first.withField g.role :: ns⟩
    (some (a, whole, n), m)

/-- The first of the ways to grow that works. -/
def readFirst (gs : List (Growth α)) (start : Nat) (first : SyntaxNode) (c : Cursor) :
    Option (α × SyntaxNode × Cursor) × Nat :=
  match gs with
  | [] => (none, c.offset)
  | g :: gs =>
    match g.read start first c with
    | (some found, m) => (some found, m)
    | (none, m) =>
      let (found, k) := readFirst gs start first c
      (found, max m k)

/-- At most `fuel` ways to grow, one after the other; `step` are the ways that there are. -/
def readFrom (step : α → Cursor → List (Growth α)) (start : Nat) :
    Nat → α → SyntaxNode → Cursor → Nat → Outcome α
  | 0, a, b, c, m => .found a [b] c m
  | fuel + 1, a, b, c, m =>
    match readFirst (step a c) start b c with
    | (none, k) => .found a [b] c (max m k)
    | (some (a, b, n), k) => readFrom step start fuel a b n (max m k)

section

variable {α : Type} {text : List Char} {b c : Cursor} {first : SyntaxNode}

theorem role_ne (g : Growth α) : g.role ≠ some "source" := by
  cases g with
  | node role kind rest hrole hkind => exact beq_eq_false_iff_ne.1 hrole
  | call value template sign types arguments =>
    show some "function" ≠ some "source"
    decide

/-- The nodes behind a callee: types, and last the arguments. -/
theorem exists_of_callTail {template : Bool} {sign types arguments : Reader Unit} {u : Unit}
    {ms : List SyntaxNode} {n : Cursor} {m : Nat}
    (h : (Reader.callTail template sign types arguments).read c = .found u ms n m) :
    ∃ ts a, ms = ts ++ [a] ∧ (∀ t ∈ ts, t.field = some "type_arguments") ∧
      (a.kind = "arguments" ∨ a.kind = "template_string") := by
  obtain ⟨_, ss, d, _, ms', _, hsign, hrest, rfl⟩ := Reader.read_bind_eq_found h
  obtain ⟨_, ts, e, _, as, _, htypes, harguments, rfl⟩ := Reader.read_bind_eq_found hrest
  have hss : ss = [] := by
    simp only [Reader.bare] at hsign
    split at hsign <;> cases hsign
    rfl
  have hts : ∀ t ∈ ts, t.field = some "type_arguments" := by
    simp only [Reader.asField] at htypes
    split at htypes
    · cases htypes
    · cases htypes
      intro t ht
      obtain ⟨t, -, rfl⟩ := List.mem_map.1 ht
      rfl
  simp only [Reader.asField] at harguments
  split at harguments
  · cases harguments
  · rename_i hnode
    cases harguments
    obtain ⟨b, rfl, hb⟩ := Reader.exists_of_nodeOf hnode
    refine ⟨ts, b.withField (some "arguments"), by rw [hss]; rfl, hts, ?_⟩
    cases template with
    | true => exact .inr hb
    | false => exact .inl hb

/-- A node that stands from where reading began to where it is now, and all nodes below it, are
    lawful. -/
def Stands (text : List Char) (b c : Cursor) (n : SyntaxNode) : Prop :=
  LeadsTo ⟨0, text⟩ b ∧ b.LeadsTo c ∧ Laid text b.offset c.offset [n]

theorem lawful_grown (g : Growth α) (h : Stands text b c first) {a : α} {ns : List SyntaxNode}
    {n : Cursor} {m : Nat} (hn : c.LeadsTo n) (hns : Laid text c.offset n.offset ns)
    (hrest : g.rest.read c = .found a ns n m) :
    SyntaxNode.Lawful text ⟨g.kind, none, true, false, ⟨b.offset, n.offset⟩,
      first.withField g.role :: ns⟩ := by
  obtain ⟨hb, hc, hfirst⟩ := h
  have hchildren := (laid_map_withField g.role_ne hfirst).append hns
  have hstart := isBoundary_of_leadsTo hb
  have hstop := isBoundary_of_leadsTo (hb.trans (hc.trans hn))
  cases g with
  | node role kind rest hrole hkind => exact lawful_of_plain hkind rfl hchildren.1 hstart hstop
  | call value template sign types arguments =>
    obtain ⟨_, ms, _, _, _, _, htail, hdone, rfl⟩ := Reader.read_bind_eq_found hrest
    cases hdone
    obtain ⟨ts, args, rfl, hts, hkind⟩ := exists_of_callTail htail
    refine lawful_of_call (first.withField (some "function")) ts rfl rfl ?_ rfl hts hkind
      hchildren.1 hstart hstop
    show first.withField (some "function") :: (ts ++ [args] ++ []) = _
    simp

/-- What a larger node that has been read stands for. -/
def Grown (text : List Char) (b : Cursor) (o : Option (α × SyntaxNode × Cursor)) : Prop :=
  ∀ a n c, o = some (a, n, c) → Stands text b c n

theorem grown_read (g : Growth α) (h : Stands text b c first) :
    Grown text b (g.read b.offset first c).1 := by
  have hrest := g.rest.sound text c (h.1.trans h.2.1)
  intro a whole d hread
  unfold read at hread
  split at hread
  · cases hread
  · rename_i a' ns n m hfound
    rw [hfound] at hrest
    obtain ⟨hn, hns⟩ := hrest
    have hlawful := g.lawful_grown h hn hns hfound
    cases hread
    obtain ⟨hb, hc, hfirst⟩ := h
    have hlaid := (laid_map_withField g.role_ne hfirst).append hns
    exact ⟨hb, hc.trans hn, laid_singleton (Nat.le_refl _) (hc.trans hn).offset_le (Nat.le_refl _)
      (allLawful_iff.2 ⟨hlawful, hlaid.2⟩)⟩

theorem grown_readFirst (gs : List (Growth α)) (h : Stands text b c first) :
    Grown text b (readFirst gs b.offset first c).1 := by
  induction gs with
  | nil => exact nofun
  | cons g gs ih =>
    have hg := g.grown_read h
    unfold readFirst
    split
    · rename_i hread
      rw [hread] at hg
      exact hg
    · exact ih

theorem Stands.sound (h : Stands text b c first) (a : α) (m : Nat) :
    (Outcome.found a [first] c m).Sound text b b.offset := ⟨h.2.1, h.2.2⟩

theorem sound_readFrom (step : α → Cursor → List (Growth α)) (fuel : Nat) (a : α) (m : Nat)
    (h : Stands text b c first) :
    (readFrom step b.offset fuel a first c m).Sound text b b.offset := by
  -- what has been read so far is one node
  induction fuel generalizing a first c m with
  | zero => exact h.sound a m
  | succ fuel ih =>
    have hfirst := grown_readFirst (step a c) h
    unfold readFrom
    split
    · exact h.sound a _
    · rename_i a' n d k hread
      rw [hread] at hfirst
      exact ih a' _ (hfirst a' n d rfl)

end

end Growth

namespace Reader

variable {α β : Type}

/-- Reads one node with `p` right here, and it becomes part of a larger node. -/
def growHere (p : Reader α) (gs : α → List (Growth β)) : Reader β where
  read c :=
    match p.read c with
    | .found a [b] n m =>
      match Growth.readFirst (gs a) c.offset b n with
      | (some (a, b, n), k) => .found a [b] n (max m k)
      | (none, k) => .stuck (max m k)
    | .found _ _ _ m => .stuck m
    | .stuck m => .stuck m
  sound text c hc := by
    have hp := p.sound text c hc
    split
    · rename_i a b n m h
      rw [h] at hp
      have hgrown := Growth.grown_readFirst (gs a) ⟨hc, hp⟩
      split
      · rename_i a' b' n' k hread
        rw [hread] at hgrown
        exact (hgrown a' b' n' rfl).2
      · trivial
    · trivial
    · trivial

/-- Reads with `p` behind the blanks, and what is read becomes part of a larger node. -/
def grow (p : Reader α) (gs : α → List (Growth β)) : Reader β := do
  overBlanks
  growHere p gs

/-- Reads with `p` right here; if that is one node, it becomes part of larger and larger nodes as
    long as `step` says how, at most `limit` times. -/
def grownHere (limit : Cursor → Nat) (p : Reader α) (step : α → Cursor → List (Growth α)) :
    Reader α where
  read c :=
    match p.read c with
    | .found a [b] n m => Growth.readFrom step c.offset (limit n) a b n m
    | o => o
  sound text c hc := by
    have hp := p.sound text c hc
    split
    · rename_i a b n m h
      rw [h] at hp
      exact Growth.sound_readFrom step (limit n) a m ⟨hc, hp⟩
    · exact hp

/-- Reads with `p` behind the blanks, and what is read becomes part of larger and larger nodes as
    long as `step` says how. -/
def grown (p : Reader α) (step : α → Cursor → List (Growth α)) : Reader α := do
  overBlanks
  grownHere (fun c => c.rest.length + 1) p step

/-- Reads with `p` behind the blanks, and what is read may become part of a larger node. -/
def grownOnce (p : Reader α) (step : α → Cursor → List (Growth α)) : Reader α := do
  overBlanks
  grownHere (fun _ => 1) p step

end Reader

end ModuleMove.Grammar
