import Abacus.Decimal

/-!
The fewest digits that read back as a double, and of the decimals with so many digits the nearest
one. Candidates are the two neighbours of the value on a decimal grid, and whether one reads back is
decided by reading it. The search has no fallback that loses precision: what it cannot shorten it
writes out exactly.
-/

namespace Abacus.Decimal

inductive Tie where
  | upward
  | toEven
deriving DecidableEq

def digitCount (n : Nat) : Nat :=
  (Nat.toDigits 10 n).length

def leadingExponent (num den : Nat) : Int :=
  if den ≤ num then (digitCount (num / den) : Int) - 1
  else -(digitCount ((den - 1) / num) : Int)

def inUnits (num den : Nat) (exponent : Int) : Nat × Nat :=
  if 0 ≤ exponent then (num, den * Nat.pow 10 exponent.toNat)
  else (num * Nat.pow 10 (-exponent).toNat, den)

/-- The decimals of `count` digits on either side of a ratio, and how the ratio lies to their
middle. -/
structure Neighbours where
  below : Decimal
  above : Decimal
  toMiddle : Ordering

def neighbours (num den count : Nat) : Neighbours :=
  let exponent := leadingExponent num den - count + 1
  let (n, d) := inUnits num den exponent
  let below := n / d
  { below := ⟨below, exponent⟩
    above := if below + 1 = Nat.pow 10 count then ⟨1, exponent + count⟩ else ⟨below + 1, exponent⟩
    toMiddle := compare (2 * (n % d)) d }

def Neighbours.nearer (p : Neighbours) (tie : Tie) : Decimal :=
  match p.toMiddle, tie with
  | .lt, _ => p.below
  | .gt, _ => p.above
  | .eq, .upward => p.above
  | .eq, .toEven => if p.below.digits % 2 = 0 then p.below else p.above

def Neighbours.pick? (p : Neighbours) (tie : Tie) (bits : Nat) : Option Decimal :=
  match p.below.toBits == bits, p.above.toBits == bits with
  | true, true => some (p.nearer tie)
  | true, false => some p.below
  | false, true => some p.above
  | false, false => none

theorem Neighbours.pick?_reads_back {p : Neighbours} {tie : Tie} {bits : Nat} {d : Decimal}
    (h : p.pick? tie bits = some d) : d.toBits = bits := by
  unfold Neighbours.pick? at h
  split at h
  · next hb ha =>
    simp only [beq_iff_eq] at hb ha
    unfold Neighbours.nearer at h
    split at h <;> try split at h
    all_goals simp_all
  · next hb _ => simp_all
  · next _ ha => simp_all
  · simp at h

def exact (bits : Nat) : Decimal :=
  ⟨units bits * Nat.pow 5 1074, -1074⟩

/-- The shortest decimal that reads back as the given positive finite magnitude. Seventeen digits
are always enough, so the exact value is only written where the search would have ended anyway. -/
def shortest (tie : Tie) (bits : Nat) : Decimal :=
  let search := (List.range 17).findSome? fun i =>
    (neighbours (units bits) unitsInOne (i + 1)).pick? tie bits
  search.getD (exact bits)

end Abacus.Decimal
