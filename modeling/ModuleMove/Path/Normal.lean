import ModuleMove.Path.Basic

/-!
# NORMAL PATHS — paths without detours

A path is normalized component by component: `.` is left out, and `..` takes back the name
before it.  At the root there is nothing to take back and `..` is left out; at the beginning of
a relative path it has to stay.
-/

namespace ModuleMove.Path

/-- Takes one more component onto the components read so far, the last of which comes first. -/
def pushComponent (stack : List Component) : Component → List Component
  | .current => stack
  | .up =>
    match stack with
    | .name _ :: r => r
    | .root :: r => .root :: r
    | r => .up :: r
  | c => c :: stack

/-- The components without detours. -/
def normalComponents (cs : List Component) : List Component :=
  (cs.foldl pushComponent []).reverse

/-- The path without detours. -/
def normalize (p : Path) : Path := ofComponents (normalComponents p.components)

end ModuleMove.Path
