import Abacus.Decimal.Text
import Abacus.Operator

/-!
Named operations on two operands. They calculate as the operator of the same meaning does, and have
a text, such as `9 + 3`, that can stand for them as an expression.
-/

namespace Abacus

inductive Operation where
  | add
  | subtract
  | multiply
  | divide
deriving DecidableEq, Repr

namespace Operation

def all : List Operation :=
  [add, subtract, multiply, divide]

def name : Operation → String
  | add => "add"
  | subtract => "subtract"
  | multiply => "multiply"
  | divide => "divide"

def ofName? (name : String) : Option Operation :=
  all.find? fun op => op.name == name

theorem ofName?_name (op : Operation) : ofName? op.name = some op := by
  cases op <;> decide

theorem name_of_ofName? {name : String} {op : Operation} (h : ofName? name = some op) :
    op.name = name := by
  simpa using List.find?_some h

def unknownName : String := "The selected operator is invalid."

def operator : Operation → Operator
  | add => .add
  | subtract => .subtract
  | multiply => .multiply
  | divide => .divide

def calculate (op : Operation) (a b : Float) : Except Fault Float :=
  op.operator.apply a b none

def operandText (x : Float) : String :=
  (Decimal.wholeText? x).getD (Decimal.plain x)

def expressionText (op : Operation) (a b : Float) : String :=
  operandText a ++ " " ++ String.singleton op.operator.symbol ++ " " ++ operandText b

end Operation

end Abacus
