/-!
# CONFIGURATIONS — what a project may choose

A configuration says which files are sources, which names barrels have, which suffixes mark spec
files, and how edits are carried out.  What is not said has a default.
-/

namespace ModuleMove

/-- What a project may choose. -/
structure Config where
  /-- Patterns of the files to look at; all files if there is none. -/
  includes : List String := []
  /-- Patterns of the files not to look at. -/
  excludes : List String := []
  /-- The extensions of source files. -/
  extensions : List String := ["ts", "tsx", "mts", "cts", "js", "jsx", "mjs", "cjs"]
  /-- The names of barrels, without extension. -/
  barrelNames : List String := ["index"]
  /-- The number of files that may be worked on at a time. -/
  jobs : Option Nat := none
  /-- Whether edits are planned only. -/
  dryRun : Bool := false
  /-- What stands before the extension of a spec file. -/
  specSuffixes : List String := ["spec"]
  deriving DecidableEq, Repr, Inhabited

namespace Config

/-- The configuration with everything left at its default. -/
def default : Config := {}

end Config

end ModuleMove
