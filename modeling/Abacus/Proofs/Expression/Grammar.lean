import Mathlib
import Abacus.Expression
import Abacus.Proofs.Decimal.Nearest

/-!
The grammar of expressions, apart from how it is read, and the values of its trees. A tail `(op x)*`
is derived with the tree of what stands before it, so the tree of a chain leans to the left; a power
leans to the right. The rules of `atom` are counted with those of `function`. Nothing here takes the
longest match: that literals end where they do is a theorem about the grammar, not a part of it.
-/

namespace Abacus.Expression

@[ext] structure Numeral where
  whole : List Char
  fraction : Option (List Char)
  whole_ne_nil : whole ≠ []
  whole_isDigit : ∀ c ∈ whole, c.isDigit = true
  fraction_isDigit : ∀ ds ∈ fraction, ∀ c ∈ ds, c.isDigit = true

namespace Numeral

def text (n : Numeral) : List Char :=
  n.whole ++ n.fraction.elim [] ('.' :: ·)

def decimal (n : Numeral) : Decimal :=
  .ofDigits n.whole (n.fraction.getD [])

end Numeral

inductive Tree where
  | literal (n : Numeral)
  | signs (minuses : Nat) (operand : Tree)
  | binary (op : Operator) (left right : Tree)
  | root (argument : Tree)
  | group (inner : Tree)

/-- The tree of a tail is that of the whole chain so far. -/
inductive Rule where
  | expression
  | summands (left : Tree)
  | term
  | factors (left : Tree)
  | power
  | unary
  | function

def Rule.left? : Rule → Option Tree
  | summands left | factors left => some left
  | expression | term | power | unary | function => none

def Contiguous (gs : List Glyph) : Prop :=
  gs.IsChain fun g next => g.isFollowedBy next = true

/-- The glyphs are derived by the rule, with the tree. An expression opens a level of nesting, and
the first argument is how many levels may be open at most. -/
inductive Derives : Nat → Rule → List Glyph → Tree → Prop
  | expression {n gs hs t u} : Derives n .term gs t → Derives n (.summands t) hs u →
      Derives (n + 1) .expression (gs ++ hs) u
  | summandsEnd {n t} : Derives n (.summands t) [] t
  | summandsMore {n t u v op gs hs} {g : Glyph} : g.char = op.symbol → op.isAdditive = true →
      Derives n .term gs u → Derives n (.summands (.binary op t u)) hs v →
      Derives n (.summands t) (g :: (gs ++ hs)) v
  | term {n gs hs t u} : Derives n .power gs t → Derives n (.factors t) hs u →
      Derives n .term (gs ++ hs) u
  | factorsEnd {n t} : Derives n (.factors t) [] t
  | factorsMore {n t u v op gs hs} {g : Glyph} : g.char = op.symbol → op.isMultiplicative = true →
      Derives n .power gs u → Derives n (.factors (.binary op t u)) hs v →
      Derives n (.factors t) (g :: (gs ++ hs)) v
  | base {n gs t} : Derives n .unary gs t → Derives n .power gs t
  | raised {n gs hs t u} {g : Glyph} : Derives n .unary gs t → g.char = '^' →
      Derives n .power hs u → Derives n .power (gs ++ g :: hs) (.binary .power t u)
  | unary {n gs t} {minuses : List Glyph} : (∀ g ∈ minuses, g.char = '-') →
      Derives n .function gs t → Derives n .unary (minuses ++ gs) (.signs minuses.length t)
  | root {n gs t} {call : List Glyph} {close : Glyph} : call.map Glyph.char = rootWord →
      Derives n .expression gs t → close.char = ')' →
      Derives n .function (call ++ (gs ++ [close])) (.root t)
  | group {n gs t} {bracket close : Glyph} : bracket.char = '(' → Derives n .expression gs t →
      close.char = ')' → Derives n .function (bracket :: (gs ++ [close])) (.group t)
  | number {n gs} {x : Numeral} : gs.map Glyph.char = x.text → Contiguous gs →
      Derives n .function gs (.literal x)

/-- The value of a tree, if it has one: the divisor must not be zero, of either sign, nor the root
be that of a number below zero. -/
inductive HasValue : Tree → Float → Prop
  | literal {n : Numeral} {x} : n.decimal.IsNearest x → HasValue (.literal n) x
  | even {n t x} : n % 2 = 0 → HasValue t x → HasValue (.signs n t) x
  | odd {n t x} : n % 2 = 1 → HasValue t x → HasValue (.signs n t) (-x)
  | add {t u x y} : HasValue t x → HasValue u y → HasValue (.binary .add t u) (x + y)
  | subtract {t u x y} : HasValue t x → HasValue u y → HasValue (.binary .subtract t u) (x - y)
  | multiply {t u x y} : HasValue t x → HasValue u y → HasValue (.binary .multiply t u) (x * y)
  | divide {t u x y} : HasValue t x → HasValue u y → (y == 0) = false →
      HasValue (.binary .divide t u) (x / y)
  | power {t u x y} : HasValue t x → HasValue u y → HasValue (.binary .power t u) (x.pow y)
  | root {t x} : HasValue t x → ¬ x < 0 → HasValue (.root t) x.sqrt
  | group {t x} : HasValue t x → HasValue (.group t) x

def Tree.value : Tree → Option Float
  | literal n => some n.decimal.toFloat
  | signs n t => t.value.map fun x => if n % 2 = 1 then -x else x
  | binary op t u => do
    let x ← t.value
    let y ← u.value
    (op.apply x y none).toOption
  | root t => do
    let x ← t.value
    (squareRoot x none).toOption
  | group t => t.value

theorem HasValue.value_eq {t : Tree} {x : Float} (h : HasValue t x) : t.value = some x := by
  induction h with
  | literal nearest => rw [Tree.value, Decimal.isNearest_iff.mp nearest]
  | even parity _ ih => simp [Tree.value, ih, parity]
  | odd parity _ ih => simp [Tree.value, ih, parity]
  | add _ _ iht ihu => simp [Tree.value, iht, ihu, Operator.apply, Except.toOption]
  | subtract _ _ iht ihu => simp [Tree.value, iht, ihu, Operator.apply, Except.toOption]
  | multiply _ _ iht ihu => simp [Tree.value, iht, ihu, Operator.apply, Except.toOption]
  | divide _ _ nonzero iht ihu =>
    simp [Tree.value, iht, ihu, Operator.apply, nonzero, Except.toOption]
  | power _ _ iht ihu => simp [Tree.value, iht, ihu, Operator.apply, Except.toOption]
  | root _ nonneg ih => simp [Tree.value, ih, squareRoot, nonneg, Except.toOption]
  | group _ ih => rw [Tree.value, ih]

theorem hasValue_of_apply {op : Operator} {t u : Tree} {x y z : Float} {span : Option Span}
    (ht : HasValue t x) (hu : HasValue u y) (h : op.apply x y span = .ok z) :
    HasValue (.binary op t u) z := by
  cases op <;> simp only [Operator.apply, Except.ok.injEq] at h
  case add => exact h ▸ .add ht hu
  case subtract => exact h ▸ .subtract ht hu
  case multiply => exact h ▸ .multiply ht hu
  case power => exact h ▸ .power ht hu
  case divide =>
    by_cases zero : (y == 0) = true
    · simp [zero] at h
    · rw [if_neg zero, Except.ok.injEq] at h
      exact h ▸ .divide ht hu (by simpa using zero)

theorem hasValue_of_squareRoot {t : Tree} {x z : Float} {span : Option Span} (ht : HasValue t x)
    (h : squareRoot x span = .ok z) : HasValue (.root t) z := by
  unfold squareRoot at h
  by_cases negative : x < 0
  · simp [negative] at h
  · rw [if_neg negative, Except.ok.injEq] at h
    exact h ▸ .root ht negative

theorem hasValue_signs {n : Nat} {t : Tree} {x : Float} (ht : HasValue t x) :
    HasValue (.signs n t) (if n % 2 = 1 then -x else x) := by
  by_cases odd : n % 2 = 1
  · rw [if_pos odd]
    exact .odd odd ht
  · rw [if_neg odd]
    exact .even (by omega) ht

theorem hasValue_iff {t : Tree} {x : Float} : HasValue t x ↔ t.value = some x := by
  refine ⟨HasValue.value_eq, fun h => ?_⟩
  induction t generalizing x with
  | literal n =>
    rw [Tree.value, Option.some.injEq] at h
    exact .literal (Decimal.isNearest_iff.mpr h.symm)
  | signs n t ih =>
    rw [Tree.value, Option.map_eq_some_iff] at h
    obtain ⟨y, hy, rfl⟩ := h
    exact hasValue_signs (ih hy)
  | binary op t u iht ihu =>
    simp only [Tree.value, Option.bind_eq_bind, Option.bind_eq_some_iff] at h
    obtain ⟨y, hy, z, hz, h⟩ := h
    cases applied : op.apply y z none with
    | error f => simp [applied, Except.toOption] at h
    | ok v =>
      rw [applied, Except.toOption, Option.some.injEq] at h
      exact hasValue_of_apply (iht hy) (ihu hz) (applied.trans (congrArg _ h))
  | root t ih =>
    simp only [Tree.value, Option.bind_eq_bind, Option.bind_eq_some_iff] at h
    obtain ⟨y, hy, h⟩ := h
    cases rooted : squareRoot y none with
    | error f => simp [rooted, Except.toOption] at h
    | ok v =>
      rw [rooted, Except.toOption, Option.some.injEq] at h
      exact hasValue_of_squareRoot (ih hy) (rooted.trans (congrArg _ h))
  | group t ih => exact .group (ih h)

end Abacus.Expression
