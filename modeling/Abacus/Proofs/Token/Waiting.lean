import Mathlib
import Abacus.Proofs.Expression.Continuations
import Abacus.Proofs.Expression.Nesting
import Abacus.Proofs.Token.Brackets
import Abacus.Proofs.Token.Lexemes

/-!
When a line is held back. The reader and the lexer count the same brackets, in the text without its
blanks and in the tokens. What has a value has all its brackets closed. Where the end of the text is
found instead of something else, all of the text has been read, with as many brackets open as the
reader stands inside of; a closing one is only asked for where there is one to close.
-/

namespace Abacus

open Text

namespace Expression

variable {src : Source} {limit : Nat} {f : Fault}

theorem Within.of_end {k : Nat} {s : List Glyph} (h : Within src limit k s)
    (ended : s.head? = none) : Reaches limit src.chars k := by
  obtain ⟨before, place, reaches⟩ := h
  rw [List.head?_eq_none_iff.mp ended, List.append_nil] at place
  rwa [Source.chars, place]

theorem Arises.reaches (h : Arises src limit f) (found : f.cause.FoundEnd) :
    ∃ k, Reaches limit src.chars k ∧ ∀ c p, f.cause = .expectedCharacter c none p → 0 < k := by
  -- at the end, the brackets that are open are those of the whole source
  cases h with
  | @number k s _ within failed =>
    obtain ⟨nothing, rfl⟩ | ⟨-, rfl⟩ := literal_value_error failed
    · have parts := Literal.split_append s
      rw [nothing, List.nil_append] at parts
      have ended : s.head? = none := parts ▸ Option.map_eq_none_iff.mp found
      exact ⟨k, within.of_end ended, by simp⟩
    · exact found.elim
  | @closing k s within =>
    have ended : s.head? = none := Option.map_eq_none_iff.mp found
    exact ⟨k + 1, within.of_end ended, fun _ _ _ => Nat.succ_pos k⟩
  | arithmetic cause =>
    obtain zero | negative := cause
    · simp [zero, Cause.FoundEnd] at found
    · simp [negative, Cause.FoundEnd] at found
  | tooDeeplyNested => exact found.elim
  | unexpectedCharacter => exact found.elim

end Expression

open Expression

section Brackets

variable {text : String} {limit : Nat}

theorem balanced_of_evaluate {v : Float} (h : evaluate text limit = .ok v) :
    Balanced (stripped text.toList) := by
  obtain ⟨t, derived, -⟩ := Source.evaluate_ok_iff.mp h
  have balanced := derived.balanced
  rwa [← Source.chars, Source.ofText, Source.chars_ofChars] at balanced

theorem reaches_of_evaluate {f : Fault} (h : evaluate text limit = .error f)
    (found : f.cause.FoundEnd) : ∃ k, Reaches limit text.toList k ∧
      ∀ c p, f.cause = .expectedCharacter c none p → 0 < k := by
  have some_glyph : (Source.ofText text).glyphs ≠ [] := by
    intro nothing
    have empty := h.symm.trans (Source.evaluate_nil nothing)
    rw [Except.error.inj empty] at found
    exact found
  obtain ⟨k, reaches, inside⟩ :=
    (Source.evaluate_error some_glyph (arises_whole _ limit) h).reaches found
  rw [Source.ofText, Source.chars_ofChars] at reaches
  exact ⟨k, reaches.of_stripped, inside⟩

end Brackets

namespace Token

theorem openBrackets?_count {text : String} (known : ∀ t ∈ ofLine text, t.kind ≠ .unknown) :
    openBrackets? (ofLine text) = some (text.toList.count '(' - text.toList.count ')') := by
  rw [openBrackets?, if_pos (count_unknown_eq_zero_iff.mpr known), count_ofLine .opening,
    count_ofLine .closing]

theorem isIncomplete_iff {ts : List Token} :
    isIncomplete ts = true ↔ ∃ n, openBrackets? ts = some n ∧ 0 < n := by
  simp [isIncomplete, Option.any_eq_true]

/-- A text that has a value is not held back. If the end is found where a number or a closing
bracket was expected and every lexeme is known, then the brackets that are open are all that were
opened less those that were closed, which are not more; and the text is held back exactly as long as
one is open. Where a closing bracket was expected, one is. -/
theorem isIncomplete_ofLine (text : String) (limit : Nat) :
    (∀ v, evaluate text limit = .ok v → isIncomplete (ofLine text) = false) ∧
    ∀ f, evaluate text limit = .error f → f.cause.FoundEnd →
      (∀ t ∈ ofLine text, t.kind ≠ .unknown) →
      text.toList.count ')' ≤ text.toList.count '(' ∧
      openBrackets? (ofLine text) = some (text.toList.count '(' - text.toList.count ')') ∧
      (isIncomplete (ofLine text) = true ↔ text.toList.count ')' < text.toList.count '(') ∧
      ∀ c p, f.cause = .expectedCharacter c none p →
        text.toList.count ')' < text.toList.count '(' := by
  refine ⟨fun v evaluated => ?_, fun f failed found known => ?_⟩
  · have pairs := (balanced_of_evaluate evaluated).count_eq
    rw [count_stripped rfl, count_stripped rfl] at pairs
    rw [← Bool.not_eq_true, isIncomplete_iff]
    rintro ⟨n, counted, some_open⟩
    by_cases known : ∀ t ∈ ofLine text, t.kind ≠ .unknown
    · rw [openBrackets?_count known, Option.some.injEq] at counted
      omega
    · push Not at known
      simp [openBrackets?_of_unknown known] at counted
  · obtain ⟨k, reaches, inside⟩ := reaches_of_evaluate failed found
    have balance : text.toList.count '(' = text.toList.count ')' + k := reaches.unclosed
    refine ⟨by omega, openBrackets?_count known, ?_, fun c p cause => ?_⟩
    · rw [isIncomplete_iff, openBrackets?_count known]
      simp
    · have some_open := inside c p cause
      omega

/-- An operand is missing inside of a bracket and outside of all, and a bracket after a number. -/
theorem isIncomplete_unfinished :
    (evaluate "(2)" 2 = .ok 2 ∧ isIncomplete (ofLine "(2)") = false) ∧
    (∃ f, evaluate "(1+" 2 = .error f ∧ isIncomplete (ofLine "(1+") = true) ∧
    (∃ f, evaluate "(1)+" 2 = .error f ∧ isIncomplete (ofLine "(1)+") = false) ∧
    ∃ f, evaluate "sqrt((1)" 3 = .error f ∧ openBrackets? (ofLine "sqrt((1)") = some 1 := by
  have value : evaluate "(2)" 2 = .ok 2 := by decide +kernel
  have inside : evaluate "(1+" 2 = .error ⟨.expectedNumber none 3, some ⟨3, 3⟩⟩ := by decide +kernel
  have outside : evaluate "(1)+" 2 = .error ⟨.expectedNumber none 4, some ⟨4, 4⟩⟩ := by
    decide +kernel
  have bracket : evaluate "sqrt((1)" 3 = .error ⟨.expectedCharacter ')' none 8, some ⟨8, 8⟩⟩ := by
    decide +kernel
  obtain ⟨-, -, held, -⟩ := (isIncomplete_ofLine "(1+" 2).2 _ inside rfl (by decide +kernel)
  obtain ⟨-, -, held', -⟩ := (isIncomplete_ofLine "(1)+" 2).2 _ outside rfl (by decide +kernel)
  obtain ⟨-, counted, -⟩ := (isIncomplete_ofLine "sqrt((1)" 3).2 _ bracket rfl (by decide +kernel)
  refine ⟨⟨value, (isIncomplete_ofLine "(2)" 2).1 2 value⟩, ⟨_, inside, held.mpr (by decide)⟩,
    ⟨_, outside, ?_⟩, _, bracket, counted⟩
  rw [← Bool.not_eq_true, held']
  decide

end Token

end Abacus
