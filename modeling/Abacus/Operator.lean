import Abacus.Fault

/-!
The five operators and the square root. Arithmetic is that of doubles throughout; the two things it
refuses are a divisor that equals zero, of either sign, and the root of a number below zero.
-/

namespace Abacus

inductive Operator where
  | add
  | subtract
  | multiply
  | divide
  | power
deriving DecidableEq, Repr

namespace Operator

def symbol : Operator → Char
  | add => '+'
  | subtract => '-'
  | multiply => '*'
  | divide => '/'
  | power => '^'

def ofSymbol? : Char → Option Operator
  | '+' => some add
  | '-' => some subtract
  | '*' => some multiply
  | '/' => some divide
  | '^' => some power
  | _ => none

theorem ofSymbol?_symbol (op : Operator) : ofSymbol? op.symbol = some op := by
  cases op <;> rfl

theorem ofSymbol?_eq_some_iff {c : Char} {op : Operator} : ofSymbol? c = some op ↔ c = op.symbol := by
  constructor
  · intro h
    unfold ofSymbol? at h
    split at h <;> simp_all [symbol]
    all_goals subst h; rfl
  · rintro rfl
    exact ofSymbol?_symbol op

theorem symbol_injective {op op' : Operator} (h : op.symbol = op'.symbol) : op = op' := by
  have := congrArg ofSymbol? h
  rwa [ofSymbol?_symbol, ofSymbol?_symbol, Option.some.injEq] at this

def isAdditive : Operator → Bool
  | add | subtract => true
  | _ => false

def isMultiplicative : Operator → Bool
  | multiply | divide => true
  | _ => false

/-- The span is where a division by zero points. -/
def apply (op : Operator) (left right : Float) (span : Option Span) : Except Fault Float :=
  match op with
  | add => .ok (left + right)
  | subtract => .ok (left - right)
  | multiply => .ok (left * right)
  | divide => if right == 0 then .error ⟨.divisionByZero, span⟩ else .ok (left / right)
  | power => .ok (left.pow right)

end Operator

def squareRoot (x : Float) (span : Option Span) : Except Fault Float :=
  if x < 0 then .error ⟨.negativeSquareRoot, span⟩ else .ok x.sqrt

end Abacus
