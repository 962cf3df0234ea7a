/-!
# LANGUAGES — which grammar a source file is read with

A file's language is decided by the extension of its name alone.  The two typed languages
differ in one point: `.tsx` files may hold markup elements and may not hold `<T>x` casts.
-/

namespace ModuleMove

/-- The grammars that a source file may be written in. -/
inductive Language where
  /-- Typed source without markup. -/
  | typeScript
  /-- Typed source with markup. -/
  | tsx
  /-- Untyped source, in which markup is always allowed. -/
  | javaScript
  deriving DecidableEq, Repr, Inhabited

namespace Language

/-- The language of a file whose name has the given extension. -/
def ofExtension? : String → Option Language
  | "ts" | "mts" | "cts" => some .typeScript
  | "tsx" => some .tsx
  | "js" | "jsx" | "mjs" | "cjs" => some .javaScript
  | _ => none

/-- The language's name in reports. -/
def name : Language → String
  | .typeScript => "typescript"
  | .tsx => "tsx"
  | .javaScript => "javascript"

/-- Whether type annotations, interfaces and the like are part of the language. -/
def typed : Language → Bool
  | .javaScript => false
  | _ => true

/-- Whether markup elements are expressions of the language. -/
def markup : Language → Bool
  | .typeScript => false
  | _ => true

end Language

end ModuleMove
