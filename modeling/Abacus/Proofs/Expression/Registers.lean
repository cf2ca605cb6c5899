import Mathlib
import Abacus.Expression
import Abacus.Proofs.Source.Lookup

/-!
The descent with a cursor and a depth. The cursor counts bytes of the stripped text and only lookups
by position read it; the depth counts the expressions that are open, and is set back when one is
left. Both are counters of a machine, so a step beyond their range breaks the run, as a slice inside
of a character does. Every entry to a production and every exit from one is recorded, with the
productions around it.
-/

namespace Abacus.Expression

open Text

inductive Nonterminal where
  | expression
  | sum
  | term
  | power
  | unary
  | function
  | atom
  | number
deriving DecidableEq, Repr

structure Registers where
  cursor : Nat
  depth : Nat
deriving DecidableEq, Repr

/-- A production that has been entered, and where. An expression counts from when it has passed the
check of the depth. -/
structure Frame where
  production : Nonterminal
  cursor : Nat
deriving DecidableEq, Repr

def opened (frames : List Frame) : Nat :=
  frames.countP (·.production == .expression)

inductive Edge where
  | entry
  | exit
deriving DecidableEq, Repr

structure Visit where
  production : Nonterminal
  edge : Edge
  frames : List Frame
  registers : Registers
deriving DecidableEq, Repr

inductive Halt where
  | fault (f : Fault)
  | broken

structure Run (α : Type) where
  result : Except Halt α
  registers : Registers
  visits : List Visit

def Run.cursors {α : Type} (run : Run α) : List Nat :=
  run.visits.map (·.registers.cursor) ++ [run.registers.cursor]

/-- Runs inside of the frames, from the registers; a failure leaves the registers as they are. -/
def Routine (α : Type) :=
  List Frame → Registers → Run α

namespace Routine

variable {α β : Type}

instance : Monad Routine where
  pure a := fun _ r => ⟨.ok a, r, []⟩
  bind x f := fun frames r =>
    let first := x frames r
    match first.result with
    | .error halt => ⟨.error halt, first.registers, first.visits⟩
    | .ok a =>
      let next := f a frames first.registers
      ⟨next.result, next.registers, first.visits ++ next.visits⟩

def registers : Routine Registers :=
  fun _ r => ⟨.ok r, r, []⟩

def ofResult (result : Except Halt α) : Routine α :=
  fun _ r => ⟨result, r, []⟩

def halt (h : Halt) : Routine α :=
  ofResult (.error h)

def ofExcept (result : Except Fault α) : Routine α :=
  ofResult (result.mapError .fault)

def ofOption : Option α → Routine α
  | some a => pure a
  | none => halt .broken

def attempt (x : Routine α) : Routine (Except Halt α) :=
  fun frames r =>
    let run := x frames r
    ⟨.ok run.result, run.registers, run.visits⟩

def framed (p : Nonterminal) (x : Routine α) : Routine α :=
  fun frames r => x (⟨p, r.cursor⟩ :: frames) r

def recorded (p : Nonterminal) (x : Routine α) : Routine α :=
  fun frames r =>
    let run := x frames r
    ⟨run.result, run.registers,
      ⟨p, .entry, frames, r⟩ :: (run.visits ++ [⟨p, .exit, frames, run.registers⟩])⟩

def within (p : Nonterminal) (x : Routine α) : Routine α :=
  recorded p (framed p x)

def deepen (capacity : Nat) : Routine Unit :=
  fun _ r =>
    if r.depth + 1 ≤ capacity then ⟨.ok (), { r with depth := r.depth + 1 }, []⟩
    else ⟨.error .broken, r, []⟩

def rise : Routine Unit :=
  fun _ r =>
    match r.depth with
    | 0 => ⟨.error .broken, r, []⟩
    | depth + 1 => ⟨.ok (), { r with depth }, []⟩

end Routine

open Routine

/-- The capacity is the largest number a counter can hold. -/
structure Evaluator where
  text : List Char
  limit : Nat
  capacity : Nat

namespace Evaluator

abbrev source (ev : Evaluator) : Source :=
  .ofChars ev.text

variable (ev : Evaluator) {α : Type}

def advance (n : Nat) : Routine Unit :=
  fun _ r =>
    if r.cursor + n ≤ ev.capacity then ⟨.ok (), { r with cursor := r.cursor + n }, []⟩
    else ⟨.error .broken, r, []⟩

def peek : Routine (Option Char) := do
  return ev.source.charAt? (← registers).cursor

def raise (cause : Nat → Cause) : Routine α := do
  let r ← registers
  halt (.fault ⟨cause r.cursor, some (ev.source.spanAt r.cursor)⟩)

def expect (c : Char) : Routine Unit := do
  let found ← ev.peek
  if found = some c then ev.advance c.utf8Size
  else ev.raise (.expectedCharacter c found)

/-- As long as the next character has a step; how many steps there may be is given in advance. -/
def loop (join : Char → Option (α → Routine α)) : Nat → α → Routine α
  | 0, _ => halt .broken
  | budget + 1, a => do
    match (← ev.peek).bind join with
    | none => return a
    | some step => loop join budget (← step a)

def budget : Nat :=
  ev.source.size + 1

def operations (kind : Operator → Bool) (step : Operator → Float → Routine Float) (a : Float) :
    Routine Float :=
  ev.loop (fun c => ((Operator.ofSymbol? c).filter kind).map step) ev.budget a

def digits (start : Nat) : Nat → Routine Unit
  | 0 => halt .broken
  | budget + 1 => do
    let p := (← registers).cursor
    if (ev.source.charAt? p).any Literal.isNumeric && (p == start || ev.source.isAdjacent p) then
      ev.advance 1
      digits start budget
    else
      return ()

def number : Routine Float := within .number do
  let start := (← registers).cursor
  ev.digits start ev.budget
  let stop := (← registers).cursor
  if stop = start then
    let found ← ev.peek
    ev.raise (.expectedNumber found)
  else
    let text ← ofOption (slice? start stop ev.source.chars)
    match Literal.decimal? text with
    | some d => return d.toFloat
    | none => halt (.fault
        ⟨.invalidNumber (String.ofList text) start, some (ev.source.spanBetween start stop)⟩)

def atom (nested : Routine Float) : Routine Float := within .atom do
  if (← ev.peek) = some '(' then
    ev.advance 1
    let value ← nested
    ev.expect ')'
    return value
  else
    ev.number

def function (nested : Routine Float) : Routine Float := within .function do
  let start := (← registers).cursor
  let (_, ahead) ← ofOption (splitAt? start ev.source.chars)
  if rootWord.isPrefixOf ahead then
    ev.advance (bytes rootWord)
    let value ← nested
    ev.expect ')'
    let stop := (← registers).cursor
    ofExcept (squareRoot value (some (ev.source.spanBetween start stop)))
  else
    ev.atom nested

def minus (n : Nat) : Routine Nat := do
  ev.advance 1
  return n + 1

def unary (nested : Routine Float) : Routine Float := within .unary do
  let minuses ← ev.loop (fun c => if c = '-' then some ev.minus else none) ev.budget 0
  let value ← ev.function nested
  return if minuses % 2 = 1 then -value else value

def raised (nested : Routine Float) (tower : Tower) : Routine Tower := do
  ev.advance 1
  let exponent ← ev.unary nested
  return ⟨exponent, tower.top :: tower.bases⟩

def power (nested : Routine Float) : Routine Float := within .power do
  let first ← ev.unary nested
  let tower ← ev.loop (fun c => if c = '^' then some (ev.raised nested) else none) ev.budget
    ⟨first, []⟩
  return tower.value

def scaled (nested : Routine Float) (op : Operator) (left : Float) : Routine Float := do
  let span := ev.source.spanAt (← registers).cursor
  ev.advance 1
  let right ← ev.power nested
  ofExcept (op.apply left right (some span))

def term (nested : Routine Float) : Routine Float := within .term do
  let first ← ev.power nested
  ev.operations Operator.isMultiplicative (ev.scaled nested) first

def added (nested : Routine Float) (op : Operator) (left : Float) : Routine Float := do
  ev.advance 1
  let right ← ev.term nested
  ofExcept (op.apply left right none)

def sum (nested : Routine Float) : Routine Float := within .sum do
  let first ← ev.term nested
  ev.operations Operator.isAdditive (ev.added nested) first

/-- The depth is set back whether the sum has a value or not. -/
def expression : Nat → Routine Float
  | 0 => halt .broken
  | budget + 1 => recorded .expression do
    if ev.limit ≤ (← registers).depth then
      ev.raise fun _ => .tooDeeplyNested ev.limit
    else
      deepen ev.capacity
      let result ← attempt (framed .expression (ev.sum (expression budget)))
      rise
      ofResult result

def evaluate : Routine Float :=
  if ev.source.size = 0 then
    halt (.fault ⟨.emptyExpression, none⟩)
  else do
    let value ← ev.expression ev.budget
    match ← ev.peek with
    | none => return value
    | some c => ev.raise (.unexpectedCharacter c)

def runs : Nat → Registers → List (Run Float)
  | 0, _ => []
  | n + 1, r => ev.evaluate [] r :: runs n (ev.evaluate [] r).registers

end Evaluator

end Abacus.Expression
