import ModuleMove.Config.Basic
import ModuleMove.Toml.Reader

/-!
# READING CONFIGURATIONS — from the text of a configuration file

A configuration file has four sections.  Sections and keys of other names are passed over, and
each that is missing has its default; one that is there has to hold a value of the right kind.
A section may also be a list of values: they belong to its keys in order.
-/

namespace ModuleMove.Config

open Toml

/-- The values of a section with the given keys. -/
def sectionEntries (keys : List String) : Option Value → Option Entries
  | none => some []
  | some (.table _ es) => some es
  | some (.list vs) => some (keys.zip vs)
  | some (.tables latest earlier) =>
    some (keys.zip ((latest :: earlier).reverse.map (Value.table .opened)))
  | some .moment => some []
  | some _ => none

/-- A value of some kind under a key, or the default if there is none. -/
def valueOr {α : Type} (key : String) (fallback : α) (decode : Value → Option α) (es : Entries) :
    Option α :=
  match lookup? key es with
  | none => some fallback
  | some v => decode v

/-- A text. -/
def textOf? : Value → Option String
  | .text s => some s
  | _ => none

/-- A list of texts. -/
def textsOf? : Value → Option (List String)
  | .list vs => vs.mapM textOf?
  | _ => none

/-- A number that is not negative. -/
def countOf? : Value → Option Nat
  | .integer n => if 0 ≤ n then some n.toNat else none
  | _ => none

/-- A truth value. -/
def truthOf? : Value → Option Bool
  | .truth b => some b
  | _ => none

/-- The configuration that a document describes. -/
def ofEntries (es : Entries) : Option Config := do
  let discovery ← sectionEntries ["include", "exclude", "extensions"] (lookup? "discovery" es)
  let includes ← valueOr "include" default.includes textsOf? discovery
  let excludes ← valueOr "exclude" default.excludes textsOf? discovery
  let extensions ← valueOr "extensions" default.extensions textsOf? discovery
  let barrel ← sectionEntries ["names"] (lookup? "barrel" es)
  let barrelNames ← valueOr "names" default.barrelNames textsOf? barrel
  let apply ← sectionEntries ["jobs", "dry_run"] (lookup? "apply" es)
  let jobs ← valueOr "jobs" default.jobs (fun v => (countOf? v).map some) apply
  let dryRun ← valueOr "dry_run" default.dryRun truthOf? apply
  let spec ← sectionEntries ["suffixes"] (lookup? "spec" es)
  let specSuffixes ← valueOr "suffixes" default.specSuffixes textsOf? spec
  pure ⟨includes, excludes, extensions, barrelNames, jobs, dryRun, specSuffixes⟩

/-- The configuration that a text describes, if it is one. -/
def ofText? (s : String) : Option Config := document? s >>= ofEntries

end ModuleMove.Config
