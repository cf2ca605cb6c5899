import Abacus.Span

/-!
Why a text has no value, and where. A fault is a cause with the span it points at; a position inside
a cause counts bytes of the stripped text, a span those of the text as typed. The wording of every
cause is here and nowhere else.
-/

namespace Abacus

inductive Cause where
  | emptyExpression
  | unexpectedCharacter (found : Char) (position : Nat)
  | expectedNumber (found : Option Char) (position : Nat)
  | invalidNumber (text : String) (position : Nat)
  | expectedCharacter (expected : Char) (found : Option Char) (position : Nat)
  | divisionByZero
  | negativeSquareRoot
  | tooDeeplyNested (limit : Nat)
deriving DecidableEq, Repr

namespace Cause

def foundText : Option Char → String
  | some c => String.singleton c
  | none => "end of input"

def message : Cause → String
  | emptyExpression => "Empty expression."
  | unexpectedCharacter found position =>
    "Unexpected character '" ++ String.singleton found ++ "' at position " ++ toString position ++ "."
  | expectedNumber found position =>
    "Expected number at position " ++ toString position ++ ", got '" ++ foundText found ++ "'."
  | invalidNumber text position =>
    "Invalid number '" ++ text ++ "' at position " ++ toString position ++ "."
  | expectedCharacter expected found position =>
    "Expected '" ++ String.singleton expected ++ "' at position " ++ toString position ++ ", got '" ++
      foundText found ++ "'."
  | divisionByZero => "Division by zero."
  | negativeSquareRoot => "Cannot take square root of a negative number."
  | tooDeeplyNested _ => "Expression is too deeply nested."

def code : Cause → String
  | emptyExpression => "C001"
  | unexpectedCharacter .. => "C002"
  | expectedNumber .. => "C003"
  | invalidNumber .. => "C004"
  | expectedCharacter .. => "C005"
  | divisionByZero => "C006"
  | negativeSquareRoot => "C007"
  | tooDeeplyNested _ => "C008"

def help? : Cause → Option String
  | emptyExpression => some "Type an expression such as `2 + 3`"
  | unexpectedCharacter .. => some "Remove the extra input or add the missing operator"
  | invalidNumber .. => some "Numbers are digits with an optional fractional part, like `12.5`"
  | expectedCharacter .. => some "Add the missing closing delimiter"
  | tooDeeplyNested _ => some "Reduce nesting or simplify the expression"
  | expectedNumber .. | divisionByZero | negativeSquareRoot => none

end Cause

structure Fault where
  cause : Cause
  span : Option Span
deriving DecidableEq, Repr

inductive Severity where
  | error
  | warning
  | info
deriving DecidableEq, Repr

def Severity.text : Severity → String
  | error => "error"
  | warning => "warning"
  | info => "info"

structure Diagnostic where
  severity : Severity
  message : String
  span : Option Span
  help : Option String
  code : String
deriving DecidableEq, Repr

def Fault.diagnostic (f : Fault) : Diagnostic where
  severity := .error
  message := f.cause.message
  span := f.span
  help := f.cause.help?
  code := f.cause.code

end Abacus
