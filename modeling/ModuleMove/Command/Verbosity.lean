/-!
# VERBOSITY — how much is said about what is done

Each time that more is asked for, one more level of messages is shown.
-/

namespace ModuleMove

/-- The least important messages that are shown. -/
inductive Verbosity where
  /-- Warnings only. -/
  | warnings
  /-- What is done. -/
  | information
  /-- How it is done. -/
  | details
  /-- Every step. -/
  | everything
  deriving DecidableEq, Repr, Inhabited

namespace Verbosity

/-- The verbosity when more was asked for `n` times. -/
def ofCount : Nat → Verbosity
  | 0 => warnings
  | 1 => information
  | 2 => details
  | _ => everything

/-- The name of the level. -/
def name : Verbosity → String
  | warnings => "WARN"
  | information => "INFO"
  | details => "DEBUG"
  | everything => "TRACE"

end Verbosity

end ModuleMove
