import Abacus.Decimal.Text
import Abacus.Request

/-!
The words of a command line. Flags may stand before or after the expression, with their value as the
next word or after an equals sign; none may come twice. A word that begins with a hyphen and is no
flag is the expression if there is none yet, so that `-5` needs no quoting; after `--` every word is.
-/

namespace Abacus.CommandLine

inductive Flag where
  | maxDepth
  | json
  | operator
  | operandA
  | operandB
deriving DecidableEq, Repr

namespace Flag

def all : List Flag :=
  [maxDepth, json, operator, operandA, operandB]

def name : Flag → String
  | maxDepth => "max-depth"
  | json => "json"
  | operator => "operator"
  | operandA => "operand-a"
  | operandB => "operand-b"

def ofName? (name : String) : Option Flag :=
  all.find? fun f => f.name == name

def isOperand : Flag → Bool
  | operandA | operandB => true
  | _ => false

end Flag

/-- What a word looks like, before it is known what it stands for. -/
inductive Shape where
  | separator
  | flag (f : Flag) (value : Option String)
  | refused
  | hyphened
  | plain
deriving DecidableEq, Repr

def longShape (body : List Char) : Shape :=
  let name := String.ofList (body.takeWhile (· ≠ '='))
  let value :=
    match body.dropWhile (· ≠ '=') with
    | [] => none
    | _ :: value => some (String.ofList value)
  if name == "help" then .refused
  else
    match Flag.ofName? name with
    | some f => .flag f value
    | none => .hyphened

def shape (word : String) : Shape :=
  match word.toList with
  | ['-', '-'] => .separator
  | '-' :: '-' :: body => longShape body
  | '-' :: c :: body => if (c :: body).all (· == 'h') then .refused else .hyphened
  | _ => .plain

/-- Digits with at most one point, not in front, and at most one `e`, after which digits follow. -/
def isUnsignedNumber (cs : List Char) : Bool :=
  let mantissa := cs.takeWhile (· ≠ 'e')
  let exponent := cs.dropWhile (· ≠ 'e')
  (cs.head?.any Char.isDigit) &&
    mantissa.all (fun c => c.isDigit || c == '.') && mantissa.count '.' ≤ 1 &&
    (exponent = [] || (exponent.length ≥ 2 && (exponent.drop 1).all Char.isDigit))

def isNegativeNumber (word : String) : Bool :=
  match word.toList with
  | '-' :: cs => isUnsignedNumber cs
  | _ => false

structure Arguments where
  limit : Option Nat
  isJson : Bool
  operator : Option String
  operandA : Option Float
  operandB : Option Float
  expression : Option String

namespace Arguments

def empty : Arguments := ⟨none, false, none, none, none, none⟩

def readLimit? (value : String) : Option Nat :=
  let ds :=
    match value.toList with
    | '+' :: ds => ds
    | ds => ds
  (Decimal.readDigits? ds).filter (· < UInt64.size)

def fill {α : Type} (value : Option α) : Option α → Option (Option α)
  | none => value.map some
  | some _ => none

def set (a : Arguments) (f : Flag) (value : String) : Option Arguments :=
  match f with
  | .maxDepth => (fill (readLimit? value) a.limit).map fun limit => { a with limit }
  | .json => none
  | .operator => (fill (some value) a.operator).map fun operator => { a with operator }
  | .operandA => (fill (Decimal.readFloat? value) a.operandA).map fun operandA => { a with operandA }
  | .operandB => (fill (Decimal.readFloat? value) a.operandB).map fun operandB => { a with operandB }

def setExpression (a : Arguments) (word : String) : Option Arguments :=
  (fill (some word) a.expression).map fun expression => { a with expression }

def setJson (a : Arguments) : Option Arguments :=
  if a.isJson then none else some { a with isJson := true }

def takesAsValue (a : Arguments) (f : Flag) (word : String) : Bool :=
  match shape word with
  | .plain => true
  | .hyphened => a.expression.isNone || (f.isOperand && isNegativeNumber word)
  | .separator | .flag .. | .refused => false

def read? (a : Arguments) : List String → Option Arguments
  | [] => some a
  | word :: more =>
    match shape word with
    | .separator => more.foldlM setExpression a
    | .refused => none
    | .hyphened | .plain =>
      match a.setExpression word with
      | some b => read? b more
      | none => none
    | .flag .json none =>
      match a.setJson with
      | some b => read? b more
      | none => none
    | .flag f (some value) =>
      match a.set f value with
      | some b => read? b more
      | none => none
    | .flag f none =>
      match more with
      | [] => none
      | value :: rest =>
        if a.takesAsValue f value then
          match a.set f value with
          | some b => read? b rest
          | none => none
        else
          none

def ofWords? (words : List String) : Option Arguments :=
  empty.read? words

def maxDepth (a : Arguments) : Nat :=
  a.limit.getD Expression.defaultLimit

def readsInput (a : Arguments) : Bool :=
  a.expression.isNone && a.operator.isNone && a.operandA.isNone && a.operandB.isNone

def request (a : Arguments) : Request :=
  ⟨a.expression, a.operandA, a.operandB, a.operator⟩

end Arguments

end Abacus.CommandLine
