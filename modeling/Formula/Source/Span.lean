/-!
# Spans of source text

A `Span` is a half-open range of byte offsets. `Span.merge` covers two spans by one.
-/

namespace Formula

/-- The bytes from `start` up to but not including `stop`. -/
structure Span where
  start : Nat
  stop : Nat
deriving DecidableEq, Inhabited

namespace Span

/-- The smallest span that covers both. -/
def merge (a b : Span) : Span :=
  ⟨min a.start b.start, max a.stop b.stop⟩

/-- Written form, such as `2..5`. -/
def text (s : Span) : String :=
  toString s.start ++ ".." ++ toString s.stop

end Span

end Formula
