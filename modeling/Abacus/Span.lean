/-! Byte ranges of a text. -/

namespace Abacus

/-- The bytes from `start` up to, and without, `stop`. -/
structure Span where
  start : Nat
  stop : Nat
deriving DecidableEq, Repr

namespace Span

def isEmpty (s : Span) : Bool :=
  !(s.start < s.stop)

theorem isEmpty_iff (s : Span) : s.isEmpty = true ↔ s.stop ≤ s.start := by
  simp [isEmpty]

end Span

end Abacus
