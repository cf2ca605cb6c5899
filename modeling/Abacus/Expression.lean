import Abacus.Expression.Literal
import Abacus.Operator

/-!
Expressions, read and calculated in one pass:

    expression := term (('+' | '-') term)*
    term       := power (('*' | '/') power)*
    power      := unary ('^' power)?
    unary      := '-'* function
    function   := 'sqrt(' expression ')' | atom
    atom       := '(' expression ')' | number

Each production takes the production for what stands between brackets, so the only recursion is that
of `expression` on the levels of nesting still allowed. A fault in the arithmetic ends the reading
where its operation is complete.
-/

namespace Abacus.Expression

/-- Takes a closing bracket. -/
def closing (src : Source) : Production Glyph :=
  Scan.accept (fun g => g.char == ')') fun s =>
    ⟨.expectedCharacter ')' (s.head?.map Glyph.char) (src.position s), some (src.span s)⟩

def rootWord : List Char := "sqrt(".toList

def beginsWith (word : List Char) (s : List Glyph) : Bool :=
  (s.take word.length).map Glyph.char == word

def group (src : Source) (nested : Production Float) : Production Float := do
  Scan.skip 1
  let value ← nested
  let _ ← closing src
  return value

def root (src : Source) (nested : Production Float) : Production Float := do
  let call ← Scan.look
  Scan.skip rootWord.length
  let value ← nested
  let last ← closing src
  Scan.ofExcept (squareRoot value (some ⟨(src.span call).start, last.offset + 1⟩))

def function (src : Source) (nested : Production Float) : Production Float := do
  let s ← Scan.look
  if beginsWith rootWord s then root src nested
  else if beginsWith ['('] s then group src nested
  else Literal.number src

def unary (src : Source) (nested : Production Float) : Production Float := do
  let minuses ← Scan.takeWhile fun g => g.char == '-'
  let value ← function src nested
  return if minuses.length % 2 = 1 then -value else value

def operator? (kind : Operator → Bool) (g : Glyph) : Option Operator :=
  (Operator.ofSymbol? g.char).filter kind

/-- The operands of a chain of powers, the last one first. -/
structure Tower where
  top : Float
  bases : List Float

def Tower.value (t : Tower) : Float :=
  t.bases.foldl (fun exponent base => base.pow exponent) t.top

def powers (src : Source) (nested : Production Float) (g : Glyph) :
    Option (Tower → Production Tower) :=
  (operator? (· == .power) g).map fun _ tower => do
    let exponent ← unary src nested
    return ⟨exponent, tower.top :: tower.bases⟩

def power (src : Source) (nested : Production Float) : Production Float := do
  let first ← unary src nested
  let tower ← Scan.chain (powers src nested) ⟨first, []⟩
  return tower.value

def factors (src : Source) (nested : Production Float) (g : Glyph) :
    Option (Float → Production Float) :=
  (operator? Operator.isMultiplicative g).map fun op left => do
    let right ← power src nested
    Scan.ofExcept (op.apply left right (some g.span))

def term (src : Source) (nested : Production Float) : Production Float := do
  let first ← power src nested
  Scan.chain (factors src nested) first

def summands (src : Source) (nested : Production Float) (g : Glyph) :
    Option (Float → Production Float) :=
  (operator? Operator.isAdditive g).map fun op left => do
    let right ← term src nested
    Scan.ofExcept (op.apply left right none)

def sum (src : Source) (nested : Production Float) : Production Float := do
  let first ← term src nested
  Scan.chain (summands src nested) first

/-- An expression, with as many more levels of nesting as the last argument allows. -/
def expression (src : Source) (limit : Nat) : Nat → Production Float
  | 0 => Scan.failWith fun s => ⟨.tooDeeplyNested limit, some (src.span s)⟩
  | levels + 1 => Scan.delay fun _ => sum src (expression src limit levels)

def whole (src : Source) (limit : Nat) : Production Float := do
  let value ← expression src limit limit
  match ← Scan.look with
  | [] => return value
  | g :: _ => Scan.fail ⟨.unexpectedCharacter g.char g.position, some g.span⟩

def defaultLimit : Nat := 50

end Abacus.Expression

namespace Abacus

def Source.evaluateFrom (src : Source) (limit : Nat) (s : List Glyph) :
    Except Fault Float × List Glyph :=
  if src.glyphs = [] then (.error ⟨.emptyExpression, none⟩, s)
  else (Expression.whole src limit).run s

def Source.evaluate (src : Source) (limit : Nat) : Except Fault Float :=
  (src.evaluateFrom limit src.glyphs).1

def evaluate (text : String) (limit : Nat) : Except Fault Float :=
  (Source.ofText text).evaluate limit

/-- A source that is read piece by piece: each answer starts where the one before it stopped, be
that at a value or at a fault. -/
structure Session where
  source : Source
  limit : Nat
  rest : List Glyph

namespace Session

def start (src : Source) (limit : Nat) : Session :=
  ⟨src, limit, src.glyphs⟩

def answer (s : Session) : Except Fault Float × Session :=
  let (result, rest) := s.source.evaluateFrom s.limit s.rest
  (result, { s with rest })

def answers : Nat → Session → List (Except Fault Float)
  | 0, _ => []
  | n + 1, s => s.answer.1 :: answers n s.answer.2

end Session

end Abacus
