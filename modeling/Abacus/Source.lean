import Abacus.Span
import Abacus.Text.Blank

/-!
A source: the characters of a text that are not blank, each with its two places. A *position* counts
the bytes of the stripped text before it, an *offset* those of the text as typed. What reads a source
moves along the list of its glyphs; the lookups by position at the end are for callers who hold a
number.
-/

namespace Abacus

structure Glyph where
  char : Char
  position : Nat
  offset : Nat
deriving DecidableEq, Repr

namespace Glyph

def span (g : Glyph) : Span :=
  ⟨g.offset, g.offset + g.char.utf8Size⟩

def covers (g : Glyph) (p : Nat) : Bool :=
  g.position ≤ p && p < g.position + g.char.utf8Size

/-- Nothing was dropped between two characters of one byte each. -/
def isFollowedBy (g next : Glyph) : Bool :=
  next.offset == g.offset + 1

def strip : (position offset : Nat) → List Char → List Glyph
  | _, _, [] => []
  | position, offset, c :: cs =>
    if Text.isBlank c then
      strip position (offset + c.utf8Size) cs
    else
      ⟨c, position, offset⟩ :: strip (position + c.utf8Size) (offset + c.utf8Size) cs

theorem strip_chars (position offset : Nat) (cs : List Char) :
    (strip position offset cs).map char = cs.filter fun c => !Text.isBlank c := by
  induction cs generalizing position offset with
  | nil => rfl
  | cons c cs ih =>
    cases h : Text.isBlank c <;> simp [strip, h, ih]

end Glyph

/-- `size` counts the bytes of the stripped text, `extent` those of the text as typed. -/
structure Source where
  glyphs : List Glyph
  size : Nat
  extent : Nat

namespace Source

def ofChars (cs : List Char) : Source where
  glyphs := Glyph.strip 0 0 cs
  size := Text.bytes (cs.filter fun c => !Text.isBlank c)
  extent := Text.bytes cs

def ofText (text : String) : Source :=
  ofChars text.toList

def chars (src : Source) : List Char :=
  src.glyphs.map Glyph.char

@[simp] theorem chars_ofChars (cs : List Char) :
    (ofChars cs).chars = cs.filter fun c => !Text.isBlank c :=
  Glyph.strip_chars 0 0 cs

def position (src : Source) : List Glyph → Nat
  | [] => src.size
  | g :: _ => g.position

def span (src : Source) : List Glyph → Span
  | [] => ⟨src.extent, src.extent⟩
  | g :: _ => g.span

def charAt? (src : Source) (p : Nat) : Option Char :=
  (src.glyphs.find? fun g => g.position == p).map Glyph.char

/-- Positions at or past the end map to the end of the text. -/
def offsetAt (src : Source) (p : Nat) : Nat :=
  match src.glyphs.find? (·.covers p) with
  | some g => g.offset + (p - g.position)
  | none => src.extent

def isAdjacent (src : Source) (p : Nat) : Bool :=
  0 < p && src.offsetAt p == src.offsetAt (p - 1) + 1

def spanAt (src : Source) (p : Nat) : Span :=
  let start := src.offsetAt p
  ⟨start, start + ((src.charAt? p).elim 0 Char.utf8Size)⟩

def spanBetween (src : Source) (first last : Nat) : Span :=
  if last ≤ first then src.spanAt first
  else ⟨src.offsetAt first, src.offsetAt (last - 1) + 1⟩

end Source

end Abacus
