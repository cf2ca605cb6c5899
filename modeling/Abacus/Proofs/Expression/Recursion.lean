import Mathlib
import Abacus.Proofs.Decimal.Sign
import Abacus.Proofs.Expression.Lockstep

/-!
The descent as the grammar reads, with a call of itself where the descent has a loop: a unary negates
a unary, a power raises a base to a power. The loops keep in a counter and in a tower what the calls
leave undone; taken apart from there, both come to the same from all registers, for whatever stands
between brackets.
-/

namespace Abacus.Expression

namespace Routine

variable {α β γ : Type}

private theorem bind_pure_id (x : Routine α) : (x >>= fun a => pure (id a)) = x := by
  funext frames r
  cases ran : x frames r with
  | mk result r' visits =>
    cases result with
    | error h => exact bind_of_error ran
    | ok a =>
      rw [bind_of_ok ran]
      exact congrArg (Run.mk _ _) (List.append_nil visits)

private theorem bind_then (x : Routine α) (f : α → Routine β) (g : β → Routine γ) :
    x >>= f >>= g = x >>= fun a => f a >>= g := by
  funext frames r
  cases ran : x frames r with
  | mk result r' visits =>
    cases result with
    | error h => rw [bind_of_error (bind_of_error ran), bind_of_error ran]
    | ok a =>
      cases ran' : f a frames r' with
      | mk result' r'' visits' =>
        have both : (x >>= f) frames r = ⟨result', r'', visits ++ visits'⟩ := by
          rw [bind_of_ok ran, ran']
        rw [bind_of_ok ran]
        cases result' with
        | error h => rw [bind_of_error both, bind_of_error ran']
        | ok b => rw [bind_of_ok both, bind_of_ok ran', List.append_assoc]

instance : LawfulMonad Routine :=
  .mk' _ bind_pure_id (fun _ _ => rfl) bind_then

end Routine

open Routine Text

namespace Evaluator

variable (ev : Evaluator) (nested : Routine Float)

def negation : Nat → Routine Float
  | 0 => halt .broken
  | budget + 1 => do
    if (← ev.peek) = some '-' then
      ev.advance 1
      let value ← negation budget
      return -value
    else
      ev.function nested

def recursiveUnary : Routine Float :=
  within .unary (ev.negation nested ev.budget)

def exponentiation (budget : Nat) : Routine Float := do
  let base ← ev.recursiveUnary nested
  match budget with
  | 0 => halt .broken
  | budget + 1 =>
    if (← ev.peek) = some '^' then
      ev.advance 1
      let exponent ← exponentiation budget
      ofExcept (Operator.power.apply base exponent none)
    else
      return base

def recursivePower : Routine Float :=
  within .power (ev.exponentiation nested ev.budget)

def termOf (power : Routine Float) : Routine Float := within .term do
  let first ← power
  ev.operations Operator.isMultiplicative (fun op left => do
    let span := ev.source.spanAt (← registers).cursor
    ev.advance 1
    let right ← power
    ofExcept (op.apply left right (some span))) first

def sumOf (power : Routine Float) : Routine Float := within .sum do
  let first ← ev.termOf power
  ev.operations Operator.isAdditive (fun op left => do
    ev.advance 1
    let right ← ev.termOf power
    ofExcept (op.apply left right none)) first

def expressionOf (power : Routine Float → Routine Float) : Nat → Routine Float
  | 0 => halt .broken
  | budget + 1 => recorded .expression do
    if ev.limit ≤ (← registers).depth then
      ev.raise fun _ => .tooDeeplyNested ev.limit
    else
      deepen ev.capacity
      let result ← attempt (framed .expression (ev.sumOf (power (expressionOf power budget))))
      rise
      ofResult result

theorem expressionOf_power (budget : Nat) : ev.expressionOf ev.power budget = ev.expression budget := by
  induction budget with
  | zero => rfl
  | succ budget ih =>
    rw [expressionOf, ih]
    rfl

section Loops

variable {α : Type} {c : Char} {step : α → Routine α}

theorem loop_succ (budget : Nat) (a : α) :
    ev.loop (fun c' => if c' = c then some step else none) (budget + 1) a =
      ev.peek >>= fun found =>
        if found = some c then
          step a >>= ev.loop (fun c' => if c' = c then some step else none) budget
        else pure a := by
  rw [loop]
  refine congrArg (ev.peek >>= ·) (funext fun found => ?_)
  cases found with
  | none => rfl
  | some c' =>
    by_cases same : c' = c
    · simp [same]
    · simp [same]

end Loops

theorem neg_sign (n : Nat) (x : Float) :
    (if (n + 1) % 2 = 1 then -x else x) = if n % 2 = 1 then - -x else -x := by
  by_cases odd : n % 2 = 1
  · rw [if_neg (by omega), if_pos odd, Decimal.neg_twice]
  · rw [if_pos (by omega), if_neg odd]

/-- The counter holds the signs that the calls have yet to put on. -/
theorem minuses_eq_negation (budget n : Nat) :
    (do
      let minuses ← ev.loop (fun c => if c = '-' then some ev.minus else none) budget n
      let value ← ev.function nested
      return if minuses % 2 = 1 then -value else value) =
    (do
      let value ← ev.negation nested budget
      return if n % 2 = 1 then -value else value) := by
  induction budget generalizing n with
  | zero => rfl
  | succ budget ih =>
    rw [loop_succ, negation, bind_assoc, bind_assoc]
    refine congrArg (ev.peek >>= ·) (funext fun found => ?_)
    by_cases minus : found = some '-'
    · rw [if_pos minus, if_pos minus, Evaluator.minus]
      simp only [bind_assoc, pure_bind, ih, neg_sign]
    · rw [if_neg minus, if_neg minus, pure_bind]

theorem recursiveUnary_eq : ev.recursiveUnary nested = ev.unary nested := by
  refine congrArg (within .unary) ?_
  have counted := minuses_eq_negation ev nested ev.budget 0
  rw [counted]
  exact (bind_pure _).symm

/-- The tower holds the bases that the calls have yet to raise. -/
theorem carets_eq_exponentiation (budget : Nat) (bases : List Float) :
    (do
      let first ← ev.unary nested
      let tower ← ev.loop (fun c => if c = '^' then some (ev.raised nested) else none) budget
        ⟨first, bases⟩
      return tower.value) =
    (do
      let exponent ← ev.exponentiation nested budget
      return bases.foldl (fun exponent base => base.pow exponent) exponent) := by
  induction budget generalizing bases with
  | zero =>
    rw [exponentiation, bind_assoc, recursiveUnary_eq]
    rfl
  | succ budget ih =>
    rw [exponentiation, bind_assoc, recursiveUnary_eq]
    refine congrArg (ev.unary nested >>= ·) (funext fun base => ?_)
    rw [loop_succ, bind_assoc, bind_assoc]
    refine congrArg (ev.peek >>= ·) (funext fun found => ?_)
    by_cases caret : found = some '^'
    · have raised (exponent : Float) : (ofExcept (Operator.power.apply base exponent none) :
          Routine Float) = pure (base.pow exponent) := rfl
      rw [if_pos caret, if_pos caret, Evaluator.raised]
      simp only [bind_assoc, pure_bind, ih, raised, List.foldl_cons]
    · rw [if_neg caret, if_neg caret, pure_bind, pure_bind]
      rfl

theorem recursivePower_eq : ev.recursivePower nested = ev.power nested := by
  refine congrArg (within .power) ?_
  have towered := carets_eq_exponentiation ev nested ev.budget []
  rw [towered]
  exact (bind_pure _).symm

theorem expressionOf_recursivePower (budget : Nat) :
    ev.expressionOf ev.recursivePower budget = ev.expression budget := by
  rw [← expressionOf_power]
  exact congrArg (ev.expressionOf · budget) (funext (recursivePower_eq ev))

end Evaluator

/-- Reading by calls comes to what reading by loops comes to. Whatever is read between brackets, and
from all registers, a unary and a power have the same result and leave the same cursor and depth; so
does an expression that is read by calls throughout. Where the registers are those of a place in the
text, within the limit, that is what the productions do there, and nothing breaks. -/
theorem Evaluator.calls_eq_loops (text : String) (limit capacity : Nat) :
    let ev : Evaluator := ⟨text.toList, limit, capacity⟩
    (∀ nested frames r, ev.recursiveUnary nested frames r = ev.unary nested frames r ∧
      ev.recursivePower nested frames r = ev.power nested frames r) ∧
    (∀ budget frames r,
      ev.expressionOf ev.recursivePower budget frames r = ev.expression budget frames r) ∧
    (bytes (stripped text.toList) ≤ capacity → limit ≤ capacity →
      ∀ frames s, opened frames ≤ limit → s <:+ ev.source.glyphs →
        let nested := ev.expressionOf ev.recursivePower ev.budget
        let inside := Expression.expression ev.source limit (limit - opened frames)
        ev.Mirrors (ev.recursiveUnary nested) frames s ((Expression.unary ev.source inside).run s) ∧
        ev.Mirrors (ev.recursivePower nested) frames s
          ((Expression.power ev.source inside).run s)) := by
  intro ev
  refine ⟨fun nested frames r => ?_, fun budget frames r => ?_, fun text_fits limit_fits => ?_⟩
  · rw [ev.recursiveUnary_eq, ev.recursivePower_eq]
    exact ⟨rfl, rfl⟩
  · rw [ev.expressionOf_recursivePower]
  · intro frames s within left nested inside
    have fits : ev.Fits := ⟨text_fits, limit_fits⟩
    have read : ev.Reads (opened frames) ev.budget nested inside := by
      rw [show nested = ev.expression ev.budget from ev.expressionOf_recursivePower ev.budget]
      exact reads_expression fits (Nat.add_sub_cancel' within)
    have short : s.length < ev.budget + 1 := Nat.lt_succ_of_lt (length_lt_budget left)
    rw [ev.recursiveUnary_eq, ev.recursivePower_eq]
    exact ⟨reads_unary fits within read frames s rfl left short,
      reads_power fits within read frames s rfl left short⟩

theorem Evaluator.calls_after_two_minuses :
    let ev : Evaluator := ⟨"--2^-(3".toList, 2, 7⟩
    let nested := ev.expressionOf ev.recursivePower ev.budget
    (∃ visits, ev.recursiveUnary nested [] ⟨0, 0⟩ = ⟨.ok 2, ⟨3, 0⟩, visits⟩) ∧
    ∃ visits, ev.recursivePower nested [] ⟨0, 0⟩ =
      ⟨.error (.fault ⟨.expectedCharacter ')' none 7, some ⟨7, 7⟩⟩), ⟨7, 0⟩, visits⟩ := by
  intro ev nested
  have signed : (Expression.unary ev.source (Expression.expression ev.source 2 2)).run
      ev.source.glyphs = (.ok 2, ev.source.glyphs.drop 3) := by decide +kernel
  have unclosed : (Expression.power ev.source (Expression.expression ev.source 2 2)).run
      ev.source.glyphs = (.error ⟨.expectedCharacter ')' none 7, some ⟨7, 7⟩⟩, []) := by
    decide +kernel
  have mirrored := (Evaluator.calls_eq_loops "--2^-(3" 2 7).2.2 (by decide) (by decide) []
    ev.source.glyphs (by decide) List.suffix_rfl
  obtain ⟨⟨visits, ran, -⟩, ⟨visits', ran', -⟩⟩ := mirrored
  refine ⟨⟨visits, ran.trans ?_⟩, ⟨visits', ran'.trans ?_⟩⟩
  · rw [show opened [] = 0 from rfl, Nat.sub_zero, signed]
    rfl
  · rw [show opened [] = 0 from rfl, Nat.sub_zero, unclosed]
    rfl

end Abacus.Expression
