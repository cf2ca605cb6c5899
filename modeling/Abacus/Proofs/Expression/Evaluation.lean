import Mathlib
import Abacus.Proofs.Expression.Soundness

/-!
Evaluation of a whole text is what the grammar says: the value of the only tree that derives it
within the limit of nesting, a fault of the arithmetic where that tree has no value, and some fault
where there is no tree.
-/

namespace Abacus

open Expression Scan

namespace Expression

theorem Derives.ne_nil {n : Nat} {r : Rule} {gs : List Glyph} {t : Tree} (h : Derives n r gs t) :
    gs ≠ [] ∨ r.left?.isSome = true := by
  induction h with
  | expression _ _ ih => simp_all [Rule.left?]
  | summandsEnd => simp [Rule.left?]
  | summandsMore => simp
  | term _ _ ih => simp_all [Rule.left?]
  | factorsEnd => simp [Rule.left?]
  | factorsMore => simp
  | base _ ih => simp_all [Rule.left?]
  | raised => simp
  | unary _ _ ih => simp_all [Rule.left?]
  | root => simp
  | group => simp
  | @number _ gs x text _ =>
    obtain ⟨g, rest, rfl, -⟩ := (Derives.number (n := 0) text ‹_›).exists_function_eq_cons
    simp

theorem Derives.nonempty {n : Nat} {gs : List Glyph} {t : Tree}
    (h : Derives n .expression gs t) : gs ≠ [] := by
  simpa [Rule.left?] using h.ne_nil

theorem Derives.tree_unique {n m : Nat} {gs hs : List Glyph} {t u : Tree}
    (ht : Derives n .expression gs t) (hu : Derives m .expression hs u)
    (same : gs.map Glyph.char = hs.map Glyph.char) : t = u := by
  have whole : gs.map Glyph.char ++ [] = hs.map Glyph.char ++ [] := by rw [same]
  exact (ht.unique hu whole (by simp) (by simp)).2

theorem Derives.read_whole {src : Source} {limit : Nat} {t : Tree}
    (h : Derives limit .expression src.glyphs t) :
    Ends (whole src limit) src.glyphs (fun v _ => t.value = some v)
      fun f => t.value = none ∧ f.IsArithmetic := by
  have read := h.read src limit [] (by simp)
  rw [List.append_nil] at read
  refine ends_whole.mpr (Ends.imp read ?_)
  rintro v _ ⟨value, rfl⟩
  exact ⟨fun _ => value, by simp⟩

theorem sound_whole (src : Source) (limit : Nat) :
    Ends (whole src limit) src.glyphs
      (fun v _ => ∃ t, Derives limit .expression src.glyphs t ∧ t.value = some v)
      (Points src limit) := by
  have sound := sound_inside (Nat.zero_add limit) [] src.glyphs rfl .start
  refine ends_whole.mpr (Ends.imp sound ?_)
  rintro v rest ⟨gs, t, taken, derived, value⟩
  constructor
  · rintro rfl
    rw [List.append_nil] at taken
    exact ⟨t, taken ▸ derived, value⟩
  · rintro g more rfl
    exact .unexpectedCharacter taken

end Expression

variable {src : Source} {limit : Nat}

theorem Source.evaluate_nil (h : src.glyphs = []) :
    src.evaluate limit = .error ⟨.emptyExpression, none⟩ := by
  simp [Source.evaluate, Source.evaluateFrom, h]

theorem Source.evaluate_ends {Q : Float → Prop} {E : Fault → Prop} (some_glyph : src.glyphs ≠ [])
    (h : Ends (whole src limit) src.glyphs (fun v _ => Q v) E) :
    (∃ v, src.evaluate limit = .ok v ∧ Q v) ∨ ∃ f, src.evaluate limit = .error f ∧ E f := by
  have run : src.evaluate limit = ((whole src limit).run src.glyphs).1 := by
    rw [Source.evaluate, Source.evaluateFrom, if_neg some_glyph]
  rw [run]
  unfold Ends at h
  cases ended : (whole src limit).run src.glyphs with
  | mk result rest =>
    rw [ended] at h
    cases result with
    | ok v => exact .inl ⟨v, rfl, h⟩
    | error f => exact .inr ⟨f, rfl, h⟩

theorem Source.evaluate_error {Q : Float → List Glyph → Prop} {E : Fault → Prop} {f : Fault}
    (some_glyph : src.glyphs ≠ []) (h : Ends (whole src limit) src.glyphs Q E)
    (failed : src.evaluate limit = .error f) : E f := by
  have ends := Ends.imp h fun _ _ _ => trivial
  cases Source.evaluate_ends (Q := fun _ => True) some_glyph ends with
  | inl value =>
    obtain ⟨v, evaluated, -⟩ := value
    cases failed.symm.trans evaluated
  | inr fault =>
    obtain ⟨g, failed', met⟩ := fault
    rwa [Except.error.inj (failed.symm.trans failed')]

theorem Source.evaluate_of_derives {t : Tree} (h : Derives limit .expression src.glyphs t) :
    (∃ v, src.evaluate limit = .ok v ∧ t.value = some v) ∨
      ∃ f, src.evaluate limit = .error f ∧ t.value = none ∧ f.IsArithmetic :=
  Source.evaluate_ends h.nonempty h.read_whole

theorem Source.evaluate_ok_iff {v : Float} : src.evaluate limit = .ok v ↔
    ∃ t, Derives limit .expression src.glyphs t ∧ t.value = some v := by
  constructor
  · intro evaluated
    have some_glyph : src.glyphs ≠ [] := by
      intro nothing
      simp [Source.evaluate_nil nothing] at evaluated
    obtain ⟨w, same, tree⟩ | ⟨f, failed, -⟩ :=
      Source.evaluate_ends some_glyph (sound_whole src limit)
    · rw [evaluated, Except.ok.injEq] at same
      exact same ▸ tree
    · simp [evaluated] at failed
  · rintro ⟨t, derived, value⟩
    obtain ⟨w, evaluated, same⟩ | ⟨f, -, undefined, -⟩ := Source.evaluate_of_derives derived
    · rw [evaluated, Option.some.inj (value.symm.trans same)]
    · simp [value] at undefined

/-- A text has the value `v` exactly when the grammar derives it within the limit with a tree of
that value. There is at most one tree, and if it has no value the arithmetic is what fails. -/
theorem evaluate_ok_iff_derives (text : String) (limit : Nat) :
    (∀ v, evaluate text limit = .ok v ↔
      ∃ t, Derives limit .expression (Source.ofText text).glyphs t ∧ HasValue t v) ∧
    (∀ n m t u, Derives n .expression (Source.ofText text).glyphs t →
      Derives m .expression (Source.ofText text).glyphs u → t = u) ∧
    ∀ t, Derives limit .expression (Source.ofText text).glyphs t → (∀ v, ¬ HasValue t v) →
      ∃ f, evaluate text limit = .error f ∧
        (f.cause = .divisionByZero ∨ f.cause = .negativeSquareRoot) := by
  refine ⟨fun v => ?_, fun n m t u ht hu => ht.tree_unique hu rfl, fun t derived undefined => ?_⟩
  · simp only [hasValue_iff]
    exact Source.evaluate_ok_iff
  · obtain ⟨v, -, value⟩ | ⟨f, failed, -, arithmetic⟩ := Source.evaluate_of_derives derived
    · exact absurd (hasValue_iff.mpr value) (undefined v)
    · exact ⟨f, failed, arithmetic⟩

def Expression.Numeral.digit (c : Char) (h : c.isDigit = true) : Numeral :=
  ⟨[c], none, by simp, by simpa using h, by simp⟩

theorem Expression.derives_digit {n : Nat} {g : Glyph} (h : g.char.isDigit = true) :
    Derives n .power [g] (.signs 0 (.literal (.digit g.char h))) := by
  have literal : Derives n .function [g] (.literal (.digit g.char h)) :=
    .number (by simp [Numeral.text, Numeral.digit]) (List.isChain_singleton g)
  have unary : Derives n .unary ([] ++ [g]) _ := .unary (by simp) literal
  exact .base unary

theorem evaluate_one_over_zero : ∃ f, evaluate "1/0" 1 = .error f ∧
    (f.cause = .divisionByZero ∨ f.cause = .negativeSquareRoot) := by
  have glyphs : (Source.ofText "1/0").glyphs = [⟨'1', 0, 0⟩, ⟨'/', 1, 1⟩, ⟨'0', 2, 2⟩] := by
    decide +kernel
  have quotient : Derives 0 .term [⟨'1', 0, 0⟩, ⟨'/', 1, 1⟩, ⟨'0', 2, 2⟩] (.binary .divide _ _) :=
    .term (derives_digit (by decide)) (.factorsMore rfl rfl (derives_digit (by decide)) .factorsEnd)
  have derived := Derives.expression quotient .summandsEnd
  rw [List.append_nil, ← glyphs] at derived
  refine (evaluate_ok_iff_derives "1/0" 1).2.2 _ derived ?_
  intro v value
  rw [hasValue_iff] at value
  have undefined : (Tree.binary .divide (.signs 0 (.literal (.digit '1' rfl)))
      (.signs 0 (.literal (.digit '0' rfl)))).value = none := by decide +kernel
  simp [undefined] at value

end Abacus
