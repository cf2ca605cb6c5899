import Mathlib
import Abacus.Proofs.Expression.Unambiguity

/-!
The reading of literals against the grammar. What `split` takes is contiguous and made of digits and
points; it takes all of a contiguous run that cannot go on. A run has a decimal exactly when it is
the text of a numeral.
-/

namespace Abacus.Expression

open Literal (isNumeric split after decimal?)

theorem contiguous_after (g : Glyph) (s : List Glyph) : Contiguous (g :: (after g s).1) := by
  induction s generalizing g with
  | nil => simp [after, Contiguous]
  | cons next s ih =>
    rw [after]
    split
    · next h =>
      simp only [Bool.and_eq_true] at h
      exact List.isChain_cons_cons.mpr ⟨h.2, ih next⟩
    · simp [Contiguous]

theorem isNumeric_after {g : Glyph} {s : List Glyph} :
    ∀ h ∈ (after g s).1, isNumeric h.char = true := by
  induction s generalizing g with
  | nil => simp [after]
  | cons next s ih =>
    rw [after]
    split
    · next h =>
      simp only [Bool.and_eq_true] at h
      simpa using ⟨h.1, fun k hk => ih k hk⟩
    · simp

theorem contiguous_split (s : List Glyph) : Contiguous (split s).1 := by
  cases s with
  | nil => simp [split, Contiguous]
  | cons g s =>
    rw [split]
    split
    · exact contiguous_after g s
    · simp [Contiguous]

theorem isNumeric_split {s : List Glyph} : ∀ g ∈ (split s).1, isNumeric g.char = true := by
  cases s with
  | nil => simp [split]
  | cons g s =>
    rw [split]
    split
    · next h => simpa using ⟨h, fun k hk => isNumeric_after k hk⟩
    · simp

theorem after_append_of_stop {g : Glyph} {gs rest : List Glyph} (contiguous : Contiguous (g :: gs))
    (run : ∀ h ∈ gs, isNumeric h.char = true) (stop : ∀ h ∈ rest.head?, isNumeric h.char = false) :
    after g (gs ++ rest) = (gs, rest) := by
  induction gs generalizing g with
  | nil =>
    cases rest with
    | nil => rfl
    | cons h rest => simp [after, stop h rfl]
  | cons next gs ih =>
    obtain ⟨adjacent, contiguous⟩ := List.isChain_cons_cons.mp contiguous
    have numeric := run next List.mem_cons_self
    have more := ih contiguous fun h hh => run h (List.mem_cons_of_mem _ hh)
    simp [after, numeric, adjacent, more]

theorem split_append_of_stop {gs rest : List Glyph} (contiguous : Contiguous gs)
    (run : ∀ h ∈ gs, isNumeric h.char = true) (stop : ∀ h ∈ rest.head?, isNumeric h.char = false) :
    split (gs ++ rest) = (gs, rest) := by
  cases gs with
  | nil =>
    cases rest with
    | nil => rfl
    | cons h rest => simp [split, stop h rfl]
  | cons g gs =>
    have numeric := run g List.mem_cons_self
    have run' : ∀ h ∈ gs, isNumeric h.char = true := fun h hh => run h (List.mem_cons_of_mem _ hh)
    have more := after_append_of_stop contiguous run' stop
    simp [split, numeric, more]

namespace Numeral

theorem decimal?_text (x : Numeral) : decimal? x.text = some x.decimal := by
  unfold decimal? text decimal
  have stop := not_isDigit_head_fraction x.fraction
  rw [takeWhile_append_of_stop x.whole_isDigit stop, dropWhile_append_of_stop x.whole_isDigit stop]
  obtain ⟨c, cs, hx⟩ := List.exists_cons_of_ne_nil x.whole_ne_nil
  cases hf : x.fraction with
  | none => simp [hx]
  | some ds =>
    have digits : ds.all Char.isDigit = true :=
      List.all_eq_true.mpr (x.fraction_isDigit ds (by simp [hf]))
    simp [hx, digits]

theorem exists_of_decimal? {cs : List Char} {d : Decimal} (h : decimal? cs = some d) :
    ∃ x : Numeral, cs = x.text ∧ d = x.decimal := by
  have digits : ∀ c ∈ cs.takeWhile Char.isDigit, c.isDigit = true :=
    fun c hc => List.mem_takeWhile_imp hc
  have parts := List.takeWhile_append_dropWhile (p := Char.isDigit) (l := cs)
  cases hw : cs.takeWhile Char.isDigit with
  | nil => simp [decimal?, hw] at h
  | cons c whole =>
    rw [hw] at digits parts
    cases hr : cs.dropWhile Char.isDigit with
    | nil =>
      simp only [decimal?, hw, hr, Option.some.injEq] at h
      refine ⟨⟨c :: whole, none, by simp, digits, by simp⟩, ?_, h.symm⟩
      simpa [text, hr] using parts.symm
    | cons point fraction =>
      simp only [decimal?, hw, hr, Option.ite_none_right_eq_some, Option.some.injEq] at h
      obtain ⟨⟨rfl, digits'⟩, value⟩ := h
      refine ⟨⟨c :: whole, some fraction, by simp, digits, by simpa using digits'⟩, ?_, value.symm⟩
      simpa [text, hr] using parts.symm

theorem decimal?_eq_none {cs : List Char} (other : ∀ x : Numeral, x.text ≠ cs) :
    decimal? cs = none := by
  cases read : decimal? cs with
  | none => rfl
  | some d =>
    obtain ⟨x, text, -⟩ := exists_of_decimal? read
    exact absurd text.symm (other x)

end Numeral

theorem literal_value {x : Numeral} {gs : List Glyph} (text : gs.map Glyph.char = x.text)
    (src : Source) (rest : List Glyph) : Literal.value src gs rest = .ok x.decimal.toFloat := by
  have some_glyph : gs ≠ [] := by
    obtain ⟨c, cs, hx, -⟩ := x.exists_text_eq_cons
    rintro rfl
    simp [hx] at text
  rw [Literal.value, if_neg some_glyph, text, x.decimal?_text]

theorem exists_of_literal_value {src : Source} {run rest : List Glyph} {v : Float}
    (h : Literal.value src run rest = .ok v) :
    ∃ x : Numeral, run.map Glyph.char = x.text ∧ v = x.decimal.toFloat := by
  unfold Literal.value at h
  by_cases nothing : run = []
  · simp [nothing] at h
  · rw [if_neg nothing] at h
    cases read : decimal? (run.map Glyph.char) with
    | none => simp [read] at h
    | some d =>
      obtain ⟨x, text, rfl⟩ := Numeral.exists_of_decimal? read
      simp only [read, Except.ok.injEq] at h
      exact ⟨x, text, h.symm⟩

theorem literal_value_error {src : Source} {run rest : List Glyph} {f : Fault}
    (h : Literal.value src run rest = .error f) :
    run = [] ∧ f = ⟨.expectedNumber (rest.head?.map Glyph.char) (src.position rest),
      some (src.span rest)⟩ ∨
    run ≠ [] ∧ f = ⟨.invalidNumber (String.ofList (run.map Glyph.char))
      (src.position (run ++ rest)), some (Literal.span src run rest)⟩ := by
  unfold Literal.value at h
  by_cases nothing : run = []
  · rw [if_pos nothing, Except.error.injEq] at h
    exact .inl ⟨nothing, h.symm⟩
  · rw [if_neg nothing] at h
    cases read : decimal? (run.map Glyph.char) with
    | some d => simp [read] at h
    | none =>
      simp only [read, Except.error.injEq] at h
      exact .inr ⟨nothing, h.symm⟩

end Abacus.Expression
