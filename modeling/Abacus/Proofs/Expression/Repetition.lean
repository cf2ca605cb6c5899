import Mathlib
import Abacus.Proofs.Expression.Nesting
import Abacus.Proofs.Source.Lookup

/-!
A session that is asked again and again. What is left only gets shorter, and an answer depends on
nothing but what is left: so the first answer that takes nothing is the answer for good. A value
takes all that is left, and after that there is nothing to have a value of.
-/

namespace Abacus

open Expression Scan Text

namespace Session

def after : Nat → Session → Session
  | 0, s => s
  | n + 1, s => after n s.answer.2

def result (s : Session) (n : Nat) : Except Fault Float :=
  (s.after n).answer.1

def position (s : Session) : Nat :=
  s.source.position s.rest

theorem after_succ (n : Nat) (s : Session) : s.after (n + 1) = (s.after n).answer.2 := by
  induction n generalizing s with
  | zero => rfl
  | succ n ih => exact ih s.answer.2

theorem after_add (m n : Nat) (s : Session) : s.after (m + n) = (s.after m).after n := by
  induction m generalizing s with
  | zero => rw [Nat.zero_add, after]
  | succ m ih => rw [Nat.succ_add, after, ih, after]

theorem answers_eq (n : Nat) (s : Session) : answers n s = (List.range n).map s.result := by
  induction n generalizing s with
  | zero => rfl
  | succ n ih =>
    rw [answers, ih, List.range_succ_eq_map, List.map_cons, List.map_map]
    rfl

/-- A session of the source under the limit, at any place. -/
structure Reads (s : Session) (src : Source) (limit : Nat) : Prop where
  source_eq : s.source = src
  limit_eq : s.limit = limit
  rest_suffix : s.rest <:+ src.glyphs

variable {src : Source} {limit : Nat} {s : Session}

theorem reads_start (src : Source) (limit : Nat) : (start src limit).Reads src limit :=
  ⟨rfl, rfl, List.suffix_refl _⟩

theorem rest_answer_suffix (s : Session) : s.answer.2.rest <:+ s.rest := by
  unfold answer Source.evaluateFrom
  split_ifs
  · exact List.suffix_refl _
  · exact (whole s.source s.limit).suffix s.rest

theorem Reads.answer (h : s.Reads src limit) : s.answer.2.Reads src limit :=
  ⟨h.source_eq, h.limit_eq, (rest_answer_suffix s).trans h.rest_suffix⟩

theorem Reads.after (h : s.Reads src limit) (n : Nat) : (s.after n).Reads src limit := by
  induction n generalizing s with
  | zero => exact h
  | succ n ih => exact ih h.answer

theorem answer_eq_of_rest_eq (same : s.answer.2.rest = s.rest) : s.answer.2 = s :=
  congrArg (Session.mk s.source s.limit) same

theorem after_eq_of_answer_eq (same : s.answer.2 = s) (n : Nat) : s.after n = s := by
  induction n with
  | zero => rfl
  | succ n ih => rw [Session.after, same, ih]

theorem result_eq_of_answer_eq {j k : Nat} (same : (s.after j).answer.2 = s.after j)
    (le : j ≤ k) : s.result k = s.result j := by
  obtain ⟨n, rfl⟩ := Nat.exists_eq_add_of_le le
  rw [result, after_add, after_eq_of_answer_eq same n]
  rfl

section Nonblank

variable (some_glyph : src.glyphs ≠ [])
include some_glyph

theorem Reads.answer_eq (h : s.Reads src limit) : s.answer =
    (((whole src limit).run s.rest).1, ⟨src, limit, ((whole src limit).run s.rest).2⟩) := by
  obtain ⟨rfl, rfl, -⟩ := h
  rw [Session.answer, Source.evaluateFrom, if_neg some_glyph]

theorem Reads.answer_at_end (h : s.Reads src limit) (nothing : s.rest = []) :
    s.answer.1 = .error (if limit = 0 then ⟨.tooDeeplyNested 0, some ⟨src.extent, src.extent⟩⟩
      else missingNumber src) := by
  -- with nothing left, there is no level to look for a number on, or no number
  rw [h.answer_eq some_glyph, nothing]
  have ends : Ends (whole src limit) [] (fun _ _ => False) (fun f => f =
      if limit = 0 then ⟨.tooDeeplyNested 0, some ⟨src.extent, src.extent⟩⟩
      else missingNumber src) := by
    rw [ends_whole]
    cases limit with
    | zero => exact ends_expression_zero.mpr rfl
    | succ n => exact ends_expression_nil.mpr rfl
  unfold Ends at ends
  cases ran : (whole src limit).run [] with
  | mk result rest =>
    rw [ran] at ends
    cases result with
    | ok v => exact ends.elim
    | error f => exact congrArg Except.error ends

theorem Reads.of_ok (h : s.Reads src limit) {v : Float} (value : s.answer.1 = .ok v) :
    s.rest ≠ [] ∧ s.answer.2.rest = [] ∧ limit ≠ 0 := by
  refine ⟨fun nothing => ?_, ?_⟩
  · rw [h.answer_at_end some_glyph nothing] at value
    cases value
  · have ends : Ends (whole src limit) s.rest (fun _ rest => rest = [] ∧ limit ≠ 0)
        fun _ => True := by
      rw [ends_whole]
      cases limit with
      | zero => exact ends_expression_zero.mpr trivial
      | succ n => exact .of_forall (fun v rest => ⟨fun _ => ⟨rfl, by simp⟩, by simp⟩) (by simp)
    rw [h.answer_eq some_glyph] at value ⊢
    unfold Ends at ends
    cases ran : (whole src limit).run s.rest with
    | mk result rest =>
      rw [ran] at ends value
      rw [show result = .ok v from value] at ends
      exact ends

theorem Reads.after_ok (h : s.Reads src limit) {v : Float} (value : s.answer.1 = .ok v) (n : Nat) :
    s.answer.2.result n = .error (missingNumber src) := by
  obtain ⟨-, nothing, positive⟩ := h.of_ok some_glyph value
  have later := h.answer.after n
  have empty : (s.answer.2.after n).rest = [] := by
    induction n with
    | zero => exact nothing
    | succ n ih =>
      have shorter := rest_answer_suffix (s.answer.2.after n)
      rw [ih (h.answer.after n), List.suffix_nil] at shorter
      rw [after_succ, shorter]
  rw [result, later.answer_at_end some_glyph empty, if_neg positive]

theorem Reads.result_after_ok (h : s.Reads src limit) {j k : Nat} {v : Float}
    (value : s.result j = .ok v) (lt : j < k) : s.result k = .error (missingNumber src) := by
  obtain ⟨n, rfl⟩ := Nat.exists_eq_add_of_le lt
  have later := (h.after j).after_ok some_glyph value n
  rwa [result, after_add, after_succ]

end Nonblank

theorem length_after_add_le (n : Nat) (moves : ∀ j < n, (s.after (j + 1)).rest ≠ (s.after j).rest) :
    (s.after n).rest.length + n ≤ s.rest.length := by
  induction n with
  | zero => exact Nat.le_refl _
  | succ n ih =>
    have earlier := ih fun j lt => moves j (Nat.lt_succ_of_lt lt)
    have left := rest_answer_suffix (s.after n)
    have differs := moves n (Nat.lt_succ_self n)
    rw [after_succ] at differs ⊢
    have shorter : (s.after n).answer.2.rest.length < (s.after n).rest.length :=
      lt_of_le_of_ne left.length_le fun same => differs (left.eq_of_length same)
    omega

/-- Among as many answers as there are glyphs, and one more, one takes nothing. -/
theorem exists_answer_eq (s : Session) :
    ∃ j ≤ s.rest.length, (s.after j).answer.2 = s.after j := by
  by_contra moving
  push Not at moving
  have taken := length_after_add_le (s := s) (s.rest.length + 1) fun j lt same => by
    rw [after_succ] at same
    exact moving j (Nat.le_of_lt_succ lt) (answer_eq_of_rest_eq same)
  omega

end Session

/-- Asking again. The answers are those of one endless sequence, in which at most one is a value;
after it a number is missing at the end of the text. An answer that takes nothing is given for good;
so it is one fault for good once there have been as many answers as the stripped text has bytes. -/
theorem Session.results_settle (text : String) (limit : Nat) (nonblank : stripped text.toList ≠ []) :
    let size := bytes (stripped text.toList)
    let s := Session.start (.ofText text) limit
    (∀ n, answers n s = (List.range n).map s.result) ∧
    (∀ j k v w, s.result j = .ok v → s.result k = .ok w → j = k) ∧
    (∀ j k v, s.result j = .ok v → j < k → s.result k =
      .error ⟨.expectedNumber none size, some ⟨bytes text.toList, bytes text.toList⟩⟩) ∧
    (∀ j, (s.after (j + 1)).position = (s.after j).position →
      ∀ k, j ≤ k → s.result k = s.result j) ∧
    ∃ f, ∀ k, size ≤ k → s.result k = .error f := by
  intro size s
  have some_glyph : (Source.ofText text).glyphs ≠ [] := mt Source.glyphs_eq_nil_iff.mp nonblank
  have reads : s.Reads (.ofText text) limit := reads_start _ _
  have after_value : ∀ j k v, s.result j = .ok v → j < k → s.result k = .error _ :=
    fun j k v value lt => reads.result_after_ok some_glyph value lt
  refine ⟨fun n => answers_eq n s, fun j k v w hj hk => ?_, after_value, fun j same k le => ?_, ?_⟩
  · rcases Nat.lt_trichotomy j k with lt | rfl | lt
    · simp [after_value j k v hj lt] at hk
    · rfl
    · simp [after_value k j w hk lt] at hj
  · have here := reads.after j
    rw [after_succ, position, position, here.answer.source_eq, here.source_eq] at same
    have rest := Source.eq_of_position_eq here.rest_suffix (rest_answer_suffix _) same
    exact result_eq_of_answer_eq (answer_eq_of_rest_eq rest) le
  · obtain ⟨j, bound, settled⟩ := exists_answer_eq s
    have few : s.rest.length ≤ size := by
      have glyphs : s.rest.length = (stripped text.toList).length := Glyph.length_strip ..
      rw [glyphs]
      exact length_le_bytes _
    cases final : s.result j with
    | ok v =>
      -- a value takes something, and this answer took nothing
      obtain ⟨some_left, nothing, -⟩ := (reads.after j).of_ok some_glyph final
      rw [settled] at nothing
      exact absurd nothing some_left
    | error f =>
      refine ⟨f, fun k le => ?_⟩
      rw [result_eq_of_answer_eq settled (by omega), final]

theorem Session.results_two_numbers :
    (Session.start (.ofText "1 2") 1).result 1 = .ok 2 ∧
      ∀ k, 1 < k → (Session.start (.ofText "1 2") 1).result k =
        .error ⟨.expectedNumber none 2, some ⟨3, 3⟩⟩ := by
  have value : (Session.start (.ofText "1 2") 1).result 1 = .ok 2 := by decide +kernel
  have settled := Session.results_settle "1 2" 1 (by decide +kernel)
  exact ⟨value, fun k lt => settled.2.2.1 1 k 2 value lt⟩

end Abacus
