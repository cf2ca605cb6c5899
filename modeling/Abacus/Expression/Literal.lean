import Abacus.Decimal
import Abacus.Fault
import Abacus.Scan
import Abacus.Source

/-!
Number literals. A literal is the longest run of digits and points with nothing dropped between its
characters; it is a number when it has digits before its only point, or no point at all.
-/

namespace Abacus

/-- A reader of glyphs: on failure it says where, and stays there. -/
abbrev Production := Scan Glyph Fault

namespace Literal

def isNumeric (c : Char) : Bool :=
  c.isDigit || c == '.'

def after (g : Glyph) : List Glyph → List Glyph × List Glyph
  | [] => ([], [])
  | next :: s =>
    if isNumeric next.char && g.isFollowedBy next then
      (next :: (after next s).1, (after next s).2)
    else
      ([], next :: s)

/-- The literal that a list of glyphs begins with, empty if there is none, and what is left. -/
def split : List Glyph → List Glyph × List Glyph
  | [] => ([], [])
  | g :: s => if isNumeric g.char then (g :: (after g s).1, (after g s).2) else ([], g :: s)

theorem after_append (g : Glyph) (s : List Glyph) : (after g s).1 ++ (after g s).2 = s := by
  induction s generalizing g with
  | nil => rfl
  | cons next s ih =>
    rw [after]
    split
    · simp [ih]
    · rfl

theorem split_append (s : List Glyph) : (split s).1 ++ (split s).2 = s := by
  cases s with
  | nil => rfl
  | cons g s =>
    rw [split]
    split
    · simp [after_append]
    · rfl

theorem split_suffix (s : List Glyph) : (split s).2 <:+ s :=
  ⟨(split s).1, split_append s⟩

def decimal? (cs : List Char) : Option Decimal :=
  match cs.takeWhile Char.isDigit, cs.dropWhile Char.isDigit with
  | [], _ => none
  | whole, [] => some (.ofDigits whole [])
  | whole, point :: fraction =>
    if point = '.' ∧ fraction.all Char.isDigit then some (.ofDigits whole fraction) else none

def span (src : Source) (run rest : List Glyph) : Span :=
  ⟨(src.span (run ++ rest)).start, (run.getLast?.elim 0 fun g => g.offset) + 1⟩

/-- The value of the literal that `s` is split into, or what is wrong with it. -/
def value (src : Source) (run rest : List Glyph) : Except Fault Float :=
  if run = [] then
    .error ⟨.expectedNumber (rest.head?.map Glyph.char) (src.position rest), some (src.span rest)⟩
  else
    match decimal? (run.map Glyph.char) with
    | some d => .ok d.toFloat
    | none =>
      .error ⟨.invalidNumber (String.ofList (run.map Glyph.char)) (src.position (run ++ rest)),
        some (span src run rest)⟩

def number (src : Source) : Production Float where
  run s := (value src (split s).1 (split s).2, (split s).2)
  suffix := split_suffix

end Literal

end Abacus
