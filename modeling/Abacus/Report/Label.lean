import Abacus.Report.Line
import Abacus.Span

/-!
Where a report points. The span of a fault is cut to the source it is shown against, which need not
be the text it came from; an empty span past the visible text is moved onto its last character, and
a blank source has nothing to point at.
-/

namespace Abacus.Report

def lastCharacter (visible : List Char) : Span :=
  let size := Text.bytes visible
  ⟨size - (visible.getLast?.elim 0 Char.utf8Size), size⟩

def labelSpan? (source : List Char) (span : Option Span) : Option Span :=
  match span with
  | none => none
  | some span =>
    if Text.allBlank source then
      none
    else
      let start := min span.start (Text.bytes source)
      let stop := min span.stop (Text.bytes source)
      let visible := Text.trimEnd source
      if start < stop then some ⟨start, stop⟩
      else if Text.bytes visible ≤ start then some (lastCharacter visible)
      else some ⟨start, start⟩

/-- The labeled columns: from one of the first line up to, and without, one of the last. -/
structure Label where
  first : Line
  last : Line
  left : Nat
  right : Nat

namespace Label

/-- An empty span labels no character of its line. -/
def ofSpan? (lines : List Line) (span : Span) : Option Label := do
  let first ← lineAt? lines span.start
  let left := first.columnOf span.start
  if span.isEmpty then
    return ⟨first, first, left, left⟩
  else
    let last ← lineAt? lines (span.stop - 1)
    return ⟨first, last, left, last.columnOf span.stop⟩

def isSingleLine (l : Label) : Bool :=
  l.first.index == l.last.index

def covers (l : Label) (line : Line) (column : Nat) : Bool :=
  (line.index != l.first.index || l.left ≤ column) && (line.index != l.last.index || column < l.right)

def middle (l : Label) : Nat :=
  (l.left + l.right) / 2

end Label

end Abacus.Report
