import Abacus.Expression
import Abacus.Operation
import Abacus.Rejection

/-!
Requests. A request holds an expression, or two operands and the name of an operation; when it holds
both, the name decides. `validate` finds everything that is wrong with its shape, `resolve` runs the
one calculation that it asks for.
-/

namespace Abacus

structure Request where
  expression : Option String
  operandA : Option Float
  operandB : Option Float
  operator : Option String

structure Calculation where
  expression : String
  result : Float
  operator : Option Operation
  operandA : Option Float
  operandB : Option Float

def filled (text : Option String) : Option String :=
  text.filter fun t => !Text.allBlank t.toList

namespace Request

/-- The text that a fault can be shown under: that of the expression, unless an operation was named,
be it by a blank. -/
def source (r : Request) : Option String :=
  if r.operator.isNone then r.expression else none

def maxLength : Nat := 500

def ofExpression (text : String) : Request where
  expression := some text
  operandA := none
  operandB := none
  operator := none

def ofOperation (op : Operation) (a b : Float) : Request where
  expression := none
  operandA := some a
  operandB := some b
  operator := some op.name

inductive Task where
  | expression (text : String)
  | operation (op : Operation) (a b : Float)

def modeComplaint : Complaint :=
  ⟨"mode", "Provide either an expression or operand_a, operand_b, and operator."⟩

def lengthComplaint : Complaint :=
  ⟨"expression",
    "The expression field must not be greater than " ++ toString maxLength ++ " characters."⟩

def operatorComplaint : Complaint :=
  ⟨"operator", Operation.unknownName⟩

/-- The length is checked of any expression, also of one that is not going to be used. -/
def isTooLong (r : Request) : Bool :=
  r.expression.any fun text => maxLength < text.length

def hasUnknownOperator (r : Request) : Bool :=
  (filled r.operator).any fun name => (Operation.ofName? name).isNone

def hasMode (r : Request) : Bool :=
  (filled r.expression).isSome ||
    (r.operandA.isSome && r.operandB.isSome && (filled r.operator).isSome)

def complaints (r : Request) : List Complaint :=
  (if r.isTooLong then [lengthComplaint] else []) ++
  (if r.hasUnknownOperator then [operatorComplaint] else []) ++
  (if r.hasMode then [] else [modeComplaint])

def validate (r : Request) : Except Rejection Unit :=
  if r.complaints = [] then .ok () else .error (.ofComplaints r.complaints)

def task (r : Request) : Except Rejection Task :=
  match filled r.expression, filled r.operator, r.operandA, r.operandB with
  | some text, none, _, _ => .ok (.expression text)
  | _, some name, some a, some b =>
    match Operation.ofName? name with
    | some op => .ok (.operation op a b)
    | none => .error (.ofComplaints [operatorComplaint])
  | _, _, _, _ => .error (.ofComplaints [modeComplaint])

namespace Task

def result (limit : Nat) : Task → Except Fault Float
  | expression text => evaluate text limit
  | operation op a b => op.calculate a b

def calculation (x : Float) : Task → Calculation
  | expression text => ⟨text, x, none, none, none⟩
  | operation op a b => ⟨op.expressionText a b, x, some op, some a, some b⟩

def run (limit : Nat) (t : Task) : Except Rejection Calculation :=
  match t.result limit with
  | .ok x => .ok (t.calculation x)
  | .error f => .error (.ofFault f)

end Task

def resolve (r : Request) (limit : Nat) : Except Rejection Calculation := do
  r.validate
  let task ← r.task
  task.run limit

end Request

end Abacus
