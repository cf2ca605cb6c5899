import Mathlib
import Abacus.Proofs.Decimal.Sign
import Abacus.Proofs.Decimal.Written
import Abacus.Proofs.Expression.Unambiguity
import Abacus.Proofs.Json.Grammar
import Abacus.Proofs.Json.Strings

/-!
Numbers of JSON are read back as they were written, to the last bit. Behind the sign of a finite
double stand a whole part, a fraction and an exponent; whichever notation is chosen, they are those
of the shortest decimal that reads back. Doubles that are not finite are written as null.
-/

namespace Abacus.Json

open Scan
open Decimal (decimalDigits padded positional scientific signed shortest magnitude isFinite isNegative)
open Expression (takeWhile_append_of_stop dropWhile_append_of_stop)

namespace Reader

variable {c : Char} {s rest : List Char} {short : Failure}

theorem run_digits {ds : List Char} (isDigit : ∀ c ∈ ds, c.isDigit = true) (some_digit : ds ≠ [])
    (stop : ∀ c ∈ rest.head?, c.isDigit = false) :
    (digits short).run (ds ++ rest) = (.ok ds, rest) := by
  have taken : (Scan.takeWhile Char.isDigit : Reader (List Char)).run (ds ++ rest) =
      (.ok ds, rest) := by
    rw [run_takeWhile, takeWhile_append_of_stop isDigit stop, dropWhile_append_of_stop isDigit stop]
  rw [digits, run_bind_of_ok taken, if_neg some_digit, run_pure]

theorem run_optionally {cs : List Char} (member : c ∈ cs) :
    (optionally cs).run (c :: s) = (.ok (some c), s) := by
  rw [optionally, run_bind_of_ok rfl, List.head?_cons]
  dsimp only
  rw [if_pos member]
  rfl

theorem run_optionally_none {cs : List Char} (absent : ∀ c ∈ s.head?, c ∉ cs) :
    (optionally cs).run s = (.ok none, s) := by
  rw [optionally, run_bind_of_ok rfl]
  cases s with
  | nil => rfl
  | cons c s =>
    rw [List.head?_cons]
    dsimp only
    rw [if_neg (absent c rfl), run_pure]

variable (p : Parts)

theorem not_isDigit_letter (e : Exponent) : e.letter.isDigit = false ∧ e.letter ≠ '.' := by
  obtain letter | letter : e.letter = 'e' ∨ e.letter = 'E' := by simpa using e.letter_mem
  all_goals
    rw [letter]
    decide

theorem head_exponentText (closes : Closes rest) :
    ∀ c ∈ (p.exponentText ++ rest).head?, c.isDigit = false ∧ c ≠ '.' := by
  rw [Parts.exponentText]
  cases p.exponent with
  | none => exact fun c hc => ⟨(closes c hc).1, (closes c hc).2.1⟩
  | some e =>
    rintro c ⟨rfl⟩
    exact not_isDigit_letter e

theorem head_fractionText (closes : Closes rest) :
    ∀ c ∈ (p.fractionText ++ (p.exponentText ++ rest)).head?, c.isDigit = false := by
  rw [Parts.fractionText]
  split_ifs
  · exact fun c hc => (head_exponentText p closes c hc).1
  · rintro c ⟨rfl⟩
    decide

theorem run_wholePart (stop : ∀ c ∈ rest.head?, c.isDigit = false) :
    (wholePart short).run (p.whole ++ rest) = (.ok p.whole, rest) := by
  have no_zero : ¬ (p.whole.head? = some '0' ∧ p.whole ≠ ['0']) :=
    fun ⟨zero, more⟩ => more (p.whole_eq_zero zero)
  rw [wholePart, run_bind_of_ok (run_digits p.whole_isDigit p.whole_ne_nil stop), if_neg no_zero,
    run_pure]

theorem run_fractionPart (stop : ∀ c ∈ rest.head?, c.isDigit = false ∧ c ≠ '.') :
    (fractionPart short).run (p.fractionText ++ rest) = (.ok p.fraction, rest) := by
  rw [Parts.fractionText]
  split_ifs with nothing
  · have absent : ∀ c ∈ rest.head?, c ∉ ['.'] := fun c hc => by simpa using (stop c hc).2
    rw [List.nil_append, fractionPart, run_bind_of_ok (run_optionally_none absent), nothing]
    rfl
  · rw [List.cons_append, fractionPart, run_bind_of_ok (run_optionally (by simp))]
    exact run_digits p.fraction_isDigit nothing fun c hc => (stop c hc).1

theorem run_sign (e : Exponent) :
    (optionally ['-', '+']).run (e.sign.toList ++ (e.digits ++ rest)) =
      (.ok e.sign, e.digits ++ rest) := by
  cases sign : e.sign with
  | none =>
    refine run_optionally_none fun c first signed => ?_
    obtain ⟨d, ds, digits⟩ := List.exists_cons_of_ne_nil e.digits_ne_nil
    obtain rfl : d = c := by simpa [digits] using first
    have digit := e.digits_isDigit d (by simp [digits])
    obtain rfl | rfl : d = '-' ∨ d = '+' := by simpa using signed
    all_goals cases digit
  | some c => exact run_optionally (e.sign_mem c sign)

theorem run_exponentPart (closes : Closes rest) :
    (exponentPart short).run (p.exponentText ++ rest) = (.ok p.power, rest) := by
  rw [Parts.exponentText, Parts.power]
  cases p.exponent with
  | none =>
    have absent : ∀ c ∈ rest.head?, c ∉ ['e', 'E'] := fun c hc => by
      simpa using (closes c hc).2.2
    rw [Option.elim_none, List.nil_append, exponentPart,
      run_bind_of_ok (run_optionally_none absent)]
    rfl
  | some e =>
    have digits : (digits short).run (e.digits ++ rest) = (.ok e.digits, rest) :=
      run_digits e.digits_isDigit e.digits_ne_nil fun c hc => (closes c hc).1
    rw [Option.elim_some, Exponent.text, List.cons_append, exponentPart,
      run_bind_of_ok (run_optionally e.letter_mem)]
    dsimp only
    rw [List.append_assoc, run_bind_of_ok (run_sign e), run_bind_of_ok digits]
    rfl

theorem run_parts (negative : Bool) (closes : Closes rest) :
    (do
      let whole ← wholePart short
      let fraction ← fractionPart short
      let exponent ← exponentPart short
      return ⟨negative, whole, fraction, exponent⟩ : Reader Numeral).run (p.text ++ rest) =
        (.ok ⟨negative, p.whole, p.fraction, p.power⟩, rest) := by
  rw [Parts.text, List.append_assoc, List.append_assoc,
    run_bind_of_ok (run_wholePart p (head_fractionText p closes)),
    run_bind_of_ok (run_fractionPart p (head_exponentText p closes)),
    run_bind_of_ok (run_exponentPart p closes), run_pure]

theorem exists_text_eq_cons : ∃ c s, p.text = c :: s ∧ c.isDigit = true := by
  obtain ⟨c, s, whole⟩ := List.exists_cons_of_ne_nil p.whole_ne_nil
  refine ⟨c, s ++ (p.fractionText ++ p.exponentText), ?_, p.whole_isDigit c (by simp [whole])⟩
  rw [Parts.text, whole, List.cons_append]

/-- A numeral ends where no number goes on. -/
theorem takes_numeral (short : Failure) (f : Figure) :
    Takes (numeral short) f.text f.numeral := by
  intro rest closes
  rw [Figure.text, Figure.numeral, numeral]
  split_ifs with negative
  · rw [List.cons_append, run_bind_of_ok (run_optionally (by simp)), negative]
    exact run_parts f.parts true closes
  · obtain ⟨c, s, text, digit⟩ := exists_text_eq_cons f.parts
    have absent : ∀ c ∈ (f.parts.text ++ rest).head?, c ∉ ['-'] := by
      rw [text]
      rintro c' ⟨rfl⟩
      rw [List.mem_singleton]
      rintro rfl
      cases digit
    rw [run_bind_of_ok (run_optionally_none absent), Bool.eq_false_iff.mpr negative]
    exact run_parts f.parts false closes

theorem roundsToNearest_nearest : Conversion.nearest.RoundsToNearest :=
  fun _ finite => if_pos finite

end Reader

theorem head?_decimalDigits {n : Nat} (zero : (decimalDigits n).head? = some '0') : n = 0 := by
  -- the last digit goes away, the first stays
  induction n using Nat.strongRecOn with
  | ind n ih =>
    rw [decimalDigits] at zero
    by_cases small : n < 10
    · rw [Nat.toDigits_of_lt_base small, List.head?_cons, Option.some.injEq] at zero
      have all : ∀ n < 10, n.digitChar = '0' → n = 0 := by decide
      exact all n small zero
    · rw [Nat.toDigits_of_base_le (by norm_num) (by omega),
        List.head?_append_of_ne_nil _ Nat.toDigits_ne_nil] at zero
      have := ih (n / 10) (by omega) zero
      omega

theorem decimalDigits_eq_zero {n : Nat} (zero : (decimalDigits n).head? = some '0') :
    decimalDigits n = ['0'] := by
  rw [head?_decimalDigits zero, decimalDigits, Nat.toDigits_zero]

def Exponent.ofInt (e : Int) : Exponent where
  letter := 'e'
  sign := some (if e < 0 then '-' else '+')
  digits := decimalDigits e.natAbs
  letter_mem := by simp
  sign_mem := by
    rintro c ⟨rfl⟩
    split_ifs <;> simp
  digits_ne_nil := Decimal.decimalDigits_ne_nil e.natAbs
  digits_isDigit := Decimal.isDigit_decimalDigits e.natAbs

theorem Exponent.value_ofInt (e : Int) : (Exponent.ofInt e).value = e := by
  have digits : Decimal.valueOfDigits (Exponent.ofInt e).digits = e.natAbs :=
    (Decimal.spells_decimalDigits e.natAbs).value
  have sign : (Exponent.ofInt e).sign = some (if e < 0 then '-' else '+') := rfl
  rw [value, digits, sign]
  by_cases negative : e < 0
  · rw [if_pos negative, if_pos rfl]
    omega
  · rw [if_neg negative, if_neg (by decide)]
    omega

namespace Parts

def ofWhole (n : Nat) : Parts where
  whole := decimalDigits n
  fraction := ['0']
  exponent := none
  whole_ne_nil := Decimal.decimalDigits_ne_nil n
  whole_isDigit := Decimal.isDigit_decimalDigits n
  whole_eq_zero := decimalDigits_eq_zero
  fraction_isDigit := by simp

def ofPlaces (n places rest : Nat) : Parts where
  whole := decimalDigits n
  fraction := padded places rest
  exponent := none
  whole_ne_nil := Decimal.decimalDigits_ne_nil n
  whole_isDigit := Decimal.isDigit_decimalDigits n
  whole_eq_zero := decimalDigits_eq_zero
  fraction_isDigit := Decimal.isDigit_padded places rest

def ofDigits (n : Nat) (exponent : Int) : Parts where
  whole := (decimalDigits n).take 1
  fraction := (decimalDigits n).drop 1
  exponent := some (.ofInt exponent)
  whole_ne_nil := by simp [decimalDigits]
  whole_isDigit c hc := Decimal.isDigit_decimalDigits n c (List.mem_of_mem_take hc)
  whole_eq_zero zero := by
    cases digits : decimalDigits n with
    | nil => simp [digits] at zero
    | cons c cs => simpa [digits] using zero
  fraction_isDigit c hc := Decimal.isDigit_decimalDigits n c (List.mem_of_mem_drop hc)

theorem value_ofWhole (n : Nat) : (ofWhole n).decimal.value = n := by
  have digits : (ofWhole n).decimal = ⟨10 * n, -1⟩ := by
    have zero : Decimal.valueOfDigits ['0'] = 0 := rfl
    simp [decimal, power, ofWhole, Decimal.valueOfDigits_append,
      (Decimal.spells_decimalDigits n).value, zero]
  rw [digits, Decimal.value]
  push_cast
  rw [zpow_neg_one]
  field_simp

theorem decimal_ofPlaces {n places rest : Nat} (pos : 0 < places) (fits : rest < 10 ^ places) :
    (ofPlaces n places rest).decimal = ⟨10 ^ places * n + rest, -places⟩ := by
  simp [decimal, power, ofPlaces, Decimal.valueOfDigits_append, Decimal.length_padded pos fits,
    (Decimal.spells_decimalDigits n).value, (Decimal.spells_padded places rest).value]

theorem decimal_ofDigits (n : Nat) (exponent : Int) : (ofDigits n exponent).decimal =
    ⟨n, exponent - (decimalDigits n).length + 1⟩ := by
  have some_digit : 0 < (decimalDigits n).length := Nat.length_toDigits_pos
  rw [decimal, power, ofDigits]
  simp only [List.take_append_drop, (Decimal.spells_decimalDigits n).value, List.length_drop,
    Option.elim_some, Exponent.value_ofInt, Decimal.mk.injEq, true_and]
  omega

end Parts

theorem exists_parts_positional (d : Decimal) :
    ∃ p : Parts, positional d ['.', '0'] = p.text ∧ p.decimal.value = d.value := by
  by_cases whole : 0 ≤ d.exponent
  · refine ⟨.ofWhole (d.digits * 10 ^ d.exponent.toNat), ?_, ?_⟩
    · rw [positional, if_pos whole]
      rfl
    · rw [Parts.value_ofWhole, Decimal.value_eq_whole whole]
  · have pos : 0 < (-d.exponent).toNat := by omega
    have places : -((-d.exponent).toNat : Int) = d.exponent := by omega
    have fits : d.digits % 10 ^ (-d.exponent).toNat < 10 ^ (-d.exponent).toNat :=
      Nat.mod_lt _ (by positivity)
    refine ⟨.ofPlaces (d.digits / 10 ^ (-d.exponent).toNat) (-d.exponent).toNat
      (d.digits % 10 ^ (-d.exponent).toNat), ?_, ?_⟩
    · have some_place : padded (-d.exponent).toNat (d.digits % 10 ^ (-d.exponent).toNat) ≠ [] := by
        rw [← List.length_pos_iff, Decimal.length_padded pos fits]
        exact pos
      rw [positional, if_neg whole, Parts.text, Parts.fractionText, Parts.ofPlaces,
        if_neg some_place, Parts.exponentText]
      simp
    · rw [Parts.decimal_ofPlaces pos fits, Nat.div_add_mod, places]

theorem exists_parts_scientific (d : Decimal) :
    ∃ p : Parts, scientific d = p.text ∧ p.decimal.value = d.value := by
  refine ⟨.ofDigits d.digits ((decimalDigits d.digits).length - 1 + d.exponent), ?_, ?_⟩
  · rw [scientific, Parts.text, Parts.fractionText, Parts.ofDigits, Parts.exponentText]
    simp only [List.drop_eq_nil_iff, Option.elim_some, List.append_assoc]
    rfl
  · rw [Parts.decimal_ofDigits]
    congr 2
    omega

/-- What is written of a finite double reads back as its magnitude, and has its sign. -/
theorem exists_parts_finite {x : Float} (finite : isFinite x = true) :
    ∃ p : Parts, numberLayout.finite x = signed x p.text ∧ p.decimal.toBits = magnitude x := by
  have inRange : magnitude x ≤ Decimal.infinityBits := by
    rw [isFinite, decide_eq_true_eq] at finite
    exact finite.le
  have read {p : Parts} (value : p.decimal.value = (shortest .toEven (magnitude x)).value) :
      p.decimal.toBits = magnitude x := by
    rw [Decimal.toBits_congr value, Decimal.toBits_shortest .toEven inRange]
  rw [Decimal.Layout.finite]
  by_cases zero : magnitude x = 0
  -- of zero there is no shortest decimal
  · rw [if_pos zero, zero]
    exact ⟨.ofWhole 0, rfl, rfl⟩
  rw [if_neg zero]
  dsimp only
  split_ifs
  · obtain ⟨p, text, value⟩ := exists_parts_positional (shortest .toEven (magnitude x))
    exact ⟨p, congrArg (signed x) text, read value⟩
  · obtain ⟨p, text, value⟩ := exists_parts_scientific (shortest .toEven (magnitude x))
    exact ⟨p, congrArg (signed x) text, read value⟩

/-- A finite double is written as a number of the grammar, of which it is the value. -/
theorem exists_figure {x : Float} (finite : isFinite x = true) :
    ∃ f : Figure, (number x).toList = f.text ∧ f.value = x := by
  obtain ⟨p, text, reads⟩ := exists_parts_finite finite
  have whole := Decimal.eq_signed finite
  rw [← reads] at whole
  refine ⟨⟨isNegative x, p⟩, ?_, whole.symm⟩
  rw [number, if_pos finite, String.toList_ofList, text]
  rfl

open Reader

theorem Figure.begins (f : Figure) : ∃ c s, f.text = c :: s ∧ beginsNumeral c = true := by
  obtain ⟨c, s, text, digit⟩ := exists_text_eq_cons f.parts
  rw [Figure.text]
  split_ifs
  · exact ⟨'-', f.parts.text, rfl, rfl⟩
  · exact ⟨c, s, text, by simp [beginsNumeral, digit]⟩

theorem solid_of_beginsNumeral {c : Char} (h : beginsNumeral c = true) :
    isBlank c = false ∧ c ≠ 'n' := by
  refine ⟨Bool.eq_false_iff.mpr fun blank => ?_, ?_⟩
  · simp only [isBlank, Bool.or_eq_true, beq_iff_eq] at blank
    rcases blank with ((rfl | rfl) | rfl) | rfl <;> cases h
  · rintro rfl
    cases h

end Abacus.Json
