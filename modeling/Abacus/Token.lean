import Abacus.Text.Blank

/-!
The tokens of a line. A line is cut into lexemes that hold all of it: tokens, and the gaps between
them. Only five blanks are skipped as gaps; a character that begins no token is a token of its own,
of an unknown kind.
-/

namespace Abacus

namespace Token

inductive Kind where
  | gap
  | root
  | opening
  | closing
  | number
  | operator
  | unknown
deriving DecidableEq, Repr

end Token

structure Token where
  kind : Token.Kind
  chars : List Char
  start : Nat
deriving DecidableEq, Repr

namespace Token

def stop (t : Token) : Nat :=
  t.start + Text.bytes t.chars

def isGap (c : Char) : Bool :=
  c == ' ' || c == '\t' || c == '\r' || c == '\n' || c == '\x0c'

def isNumeric (c : Char) : Bool :=
  c.isDigit || c == '.'

def isOperator (c : Char) : Bool :=
  c == '-' || c == '+' || c == '*' || c == '/' || c == '^'

def rootTail : List Char := "qrt".toList

/-- The kind of the lexeme that begins with `c`, and how many of the characters after it belong to
it. -/
def munch (c : Char) (s : List Char) : Kind × Nat :=
  if isGap c then (.gap, (s.takeWhile isGap).length)
  else if isNumeric c then (.number, (s.takeWhile isNumeric).length)
  else if isOperator c then (.operator, 0)
  else if c = '(' then (.opening, 0)
  else if c = ')' then (.closing, 0)
  else if c = 's' ∧ rootTail.isPrefixOf s then (.root, rootTail.length)
  else (.unknown, 0)

def lexemes (start : Nat) : List Char → List Token
  | [] => []
  | c :: s =>
    let (kind, more) := munch c s
    let chars := c :: s.take more
    ⟨kind, chars, start⟩ :: lexemes (start + Text.bytes chars) (s.drop more)
termination_by s => s.length
decreasing_by
  simp only [List.length_drop, List.length_cons]
  omega

theorem flatMap_chars_lexemes (start : Nat) (s : List Char) :
    (lexemes start s).flatMap chars = s := by
  fun_induction lexemes start s with
  | case1 => rfl
  | case2 start c s kind more _ chars ih =>
    rw [List.flatMap_cons, ih]
    simp [chars]

def ofLine (line : String) : List Token :=
  (lexemes 0 line.toList).filter fun t => t.kind ≠ .gap

def count (kind : Kind) (ts : List Token) : Nat :=
  ts.countP fun t => t.kind = kind

/-- How many brackets are open at the end of the line; unknown as soon as one token is. Closing
brackets in excess do not count. -/
def openBrackets? (ts : List Token) : Option Nat :=
  if count .unknown ts = 0 then some (count .opening ts - count .closing ts) else none

def isIncomplete (ts : List Token) : Bool :=
  (openBrackets? ts).any (0 < ·)

end Token

end Abacus
