import Abacus.Text.Width

/-!
The lines of a source, as they are numbered and measured under a label. A line holds its terminator;
what is drawn of it ends before its last blanks. Columns count characters.
-/

namespace Abacus.Report

def isTerminator (c : Char) : Bool :=
  c == '\n' || c == '\r' || c == '\x0b' || c == '\x0c' || c == '\u0085' || c == '\u2028' ||
    c == '\u2029'

/-- Cuts after every terminator; a carriage return and the line feed after it are one. -/
def cutLines : List Char → List (List Char)
  | [] => []
  | '\r' :: '\n' :: s => ['\r', '\n'] :: cutLines s
  | c :: s =>
    if isTerminator c then [c] :: cutLines s
    else
      match cutLines s with
      | [] => [[c]]
      | first :: more => (c :: first) :: more

theorem flatten_cutLines (s : List Char) : (cutLines s).flatten = s := by
  fun_induction cutLines s with
  | case1 => rfl
  | case2 s ih => simp [ih]
  | case3 c s _ _ ih => simp [ih]
  | case4 c s _ _ h ih => simp [h] at ih; simp [← ih]
  | case5 c s _ _ first more h ih => simp [h] at ih; simp [ih]

structure Line where
  index : Nat
  start : Nat
  chars : List Char

def Line.number (l : Line) : Nat :=
  l.index + 1

def numberLines : (index start : Nat) → List (List Char) → List Line
  | _, _, [] => []
  | index, start, chars :: more =>
    ⟨index, start, chars⟩ :: numberLines (index + 1) (start + Text.bytes chars) more

def linesOf (source : List Char) : List Line :=
  numberLines 0 0 (cutLines source)

/-- The last line that begins at or before a byte. -/
def lineAt? (lines : List Line) (byte : Nat) : Option Line :=
  (lines.filter fun l => l.start ≤ byte).getLast?

def charsWithin : (n : Nat) → List Char → Nat
  | _, [] => 0
  | n, c :: s => if n = 0 then 0 else 1 + charsWithin (n - c.utf8Size) s

namespace Line

def columnOf (l : Line) (byte : Nat) : Nat :=
  charsWithin (byte - l.start) l.chars

def drawn (l : Line) : List Char :=
  Text.trimEnd l.chars

def columnWidth (l : Line) (column : Nat) : Nat :=
  match l.drawn[column]? with
  | some c => Text.shownWidth column c
  | none => 1

end Line

end Abacus.Report
