/-!
# SPANS — half-open ranges of byte offsets in a text

Everything the program knows about a place in a file is a byte offset, and everything it
knows about a stretch of a file is a pair of them.  A span runs from its first byte up to,
and not including, the byte at which it stops.
-/

namespace ModuleMove

/-- A half-open range of byte offsets: `start` is inside, `stop` is not. -/
structure Span where
  /-- The offset of the first byte. -/
  start : Nat
  /-- The offset just past the last byte. -/
  stop : Nat
  deriving DecidableEq, Repr, Inhabited

namespace Span

/-! ## §1. Size and relations. -/

/-- The number of bytes covered; a span that runs backwards covers none. -/
def length (s : Span) : Nat := s.stop - s.start

/-- A span that covers no byte. -/
def isEmpty (s : Span) : Bool := s.stop ≤ s.start

/-- Two spans overlap when each starts before the other stops; adjacent spans do not. -/
def overlaps (s t : Span) : Bool := s.start < t.stop && t.start < s.stop

/-- `s.contains t` when no end of `t` lies outside `s`. -/
def contains (s t : Span) : Bool := s.start ≤ t.start && t.stop ≤ s.stop

/-- The written form `[start, stop)`. -/
def render (s : Span) : String :=
  "[" ++ toString s.start ++ ", " ++ toString s.stop ++ ")"

theorem overlaps_comm (s t : Span) : s.overlaps t = t.overlaps s := by
  simp [overlaps, Bool.and_comm]

theorem contains_refl (s : Span) : s.contains s = true := by
  simp [contains]

end Span

end ModuleMove
