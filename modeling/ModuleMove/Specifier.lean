import ModuleMove.Delta

/-!
# SPECIFIERS — how one file names another

A relative specifier begins with a dot and is read from the directory of the file it stands in; an
anchored one begins with a slash and is read from the root of the project.  Reading never looks
at files.  A specifier keeps its style when it is written anew.
-/

namespace ModuleMove

namespace Specifier

/-! ## §1. Reading. -/

/-- The place that a specifier names, from the directory `dir` in the project at `root`. -/
def resolve (specifier : String) (dir root : Path) : Path :=
  match afterStart? "/" specifier with
  | some rest => (root.join ⟨rest⟩).normalize
  | none => (dir.join ⟨specifier⟩).normalize

/-! ## §2. Writing. -/

/-- The relative specifier of `target` from the directory `dir`. -/
def relative (dir target : Path) : String :=
  let from_ := dir.components
  let goal := target.components
  let n := commonLength from_ goal
  let ups := (from_.drop n).map fun _ => ".."
  let start := if ups.isEmpty then ["."] else ups
  joinText '/' (start ++ Path.textsOf (goal.drop n))

/-- The anchored specifier of `target` in the project at `root`. -/
def anchored (root target : Path) : String :=
  "/" ++ joinText '/' (Path.textsOf ((target.below? root).getD target.components))

/-- The specifier of `target` from the directory `dir`, in the style of `former`. -/
def respecify (former : String) (dir target root : Path) : String :=
  if (afterStart? "/" former).isSome then anchored root target else relative dir target

end Specifier

/-! ## §3. Source extensions. -/

/-- The name without its source extension, if it has one of those listed and something before
    it. -/
def stripSourceExtension (name : String) (extensions : List String) : String :=
  (extensions.findSome? fun ext =>
    match beforeEnd? ("." ++ ext) name with
    | some stem => if stem == "" then none else some stem
    | none => none).getD name

/-- The path without the source extension of the name at its end. -/
def stripExtension (p : Path) (extensions : List String) : Path :=
  match p.fileName? with
  | some name =>
    let stem := stripSourceExtension name extensions
    if stem.length == name.length then p else p.withFileName stem
  | none => p

/-- Whether two paths name the same module: they differ at most in a source extension. -/
def sameModule (a b : Path) (extensions : List String) : Bool :=
  (stripExtension a extensions).same (stripExtension b extensions)

end ModuleMove
