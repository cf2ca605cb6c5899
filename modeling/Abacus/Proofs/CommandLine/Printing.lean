import Mathlib
import Abacus.Proofs.CommandLine.Batch
import Abacus.Proofs.Decimal.Shortest
import Abacus.Proofs.Operation

/-!
Printed results. What is printed of a finite double is an expression that has that double as its
value, and never too long for a request; so a printed line, given back, is printed again. What is
printed of any other double has letters that no expression has, and is turned down.
-/

namespace Abacus

open Text

namespace Expression

/-- The characters of expressions, blanks apart. -/
def isWritten (c : Char) : Bool :=
  Literal.isNumeric c || ['+', '-', '*', '/', '^', '(', ')', 's', 'q', 'r', 't'].contains c

theorem isWritten_symbol (op : Operator) : isWritten op.symbol = true := by
  cases op <;> decide

theorem isWritten_of_mem_text {n : Numeral} {c : Char} (h : c ∈ n.text) : isWritten c = true := by
  rw [isWritten, Numeral.isNumeric_of_mem h, Bool.true_or]

theorem isWritten_of_mem_rootWord {c : Char} (h : c ∈ rootWord) : isWritten c = true := by
  have word : ∀ c ∈ rootWord, isWritten c = true := by simp [rootWord_eq, isWritten]
  exact word c h

/-- No other character is derived. -/
theorem Derives.isWritten {n : Nat} {r : Rule} {gs : List Glyph} {t : Tree}
    (h : Derives n r gs t) : ∀ g ∈ gs, Expression.isWritten g.char = true := by
  have letter {g : Glyph} {c : Char} (char : g.char = c) (there : Expression.isWritten c = true) :
      Expression.isWritten g.char = true := by rw [char, there]
  induction h with
  | expression _ _ first rest => exact List.forall_mem_append.mpr ⟨first, rest⟩
  | summandsEnd => simp
  | summandsMore char _ _ _ first rest =>
    exact List.forall_mem_cons.mpr
      ⟨letter char (isWritten_symbol _), List.forall_mem_append.mpr ⟨first, rest⟩⟩
  | term _ _ first rest => exact List.forall_mem_append.mpr ⟨first, rest⟩
  | factorsEnd => simp
  | factorsMore char _ _ _ first rest =>
    exact List.forall_mem_cons.mpr
      ⟨letter char (isWritten_symbol _), List.forall_mem_append.mpr ⟨first, rest⟩⟩
  | base _ only => exact only
  | raised _ caret _ first rest =>
    exact List.forall_mem_append.mpr
      ⟨first, List.forall_mem_cons.mpr ⟨letter caret (by decide), rest⟩⟩
  | unary minuses _ rest =>
    exact List.forall_mem_append.mpr ⟨fun g hg => letter (minuses g hg) (by decide), rest⟩
  | root word _ close inner =>
    refine List.forall_mem_append.mpr ⟨fun g hg => ?_, List.forall_mem_append.mpr ⟨inner, ?_⟩⟩
    · exact isWritten_of_mem_rootWord (word ▸ List.mem_map_of_mem hg)
    · exact List.forall_mem_singleton.mpr (letter close (by decide))
  | group bracket _ close inner =>
    refine List.forall_mem_cons.mpr ⟨letter bracket (by decide),
      List.forall_mem_append.mpr ⟨inner, ?_⟩⟩
    exact List.forall_mem_singleton.mpr (letter close (by decide))
  | number text _ =>
    exact fun g hg => isWritten_of_mem_text (text ▸ List.mem_map_of_mem hg)

end Expression

theorem isWritten_of_evaluate {text : String} {limit : Nat} {x : Float}
    (h : evaluate text limit = .ok x) {c : Char} (there : c ∈ text.toList)
    (solid : isBlank c = false) : Expression.isWritten c = true := by
  obtain ⟨t, derived, -⟩ := Source.evaluate_ok_iff.mp h
  have glyph : c ∈ (Source.ofText text).glyphs.map Glyph.char := by
    change c ∈ (Source.ofChars text.toList).chars
    rw [Source.chars_ofChars]
    exact List.mem_filter.mpr ⟨there, by simp [solid]⟩
  obtain ⟨g, hg, rfl⟩ := List.mem_map.mp glyph
  exact derived.isWritten g hg

namespace Decimal

variable {x : Float}

theorem length_signed_le (x : Float) (cs : List Char) : (signed x cs).length ≤ cs.length + 1 := by
  unfold signed
  split_ifs
  · exact le_rfl
  · exact Nat.le_succ _

theorem length_plain_le (finite : isFinite x = true) : (plain x).length ≤ 401 := by
  -- the longest is a sign before the digits of a double close to zero
  rw [← String.length_toList, Expression.toList_plain finite, Layout.finite]
  by_cases zero : magnitude x = 0
  · rw [if_pos zero]
    exact (length_signed_le x _).trans (by decide)
  · rw [if_neg zero]
    have small : magnitude x < infinityBits := by simpa [isFinite] using finite
    have digits := length_positional_shortest .upward (Nat.pos_of_ne_zero zero) small
    exact (length_signed_le x _).trans (Nat.succ_le_succ digits)

theorem plain_of_not_finite (h : isFinite x = false) :
    plain x = "NaN" ∨ plain x = "-inf" ∨ plain x = "inf" := by
  rw [plain, if_neg (by simp [h])]
  split_ifs
  · exact .inl rfl
  · exact .inr (.inl rfl)
  · exact .inr (.inr rfl)

theorem isBlank_of_mem_plain (finite : isFinite x = true) {c : Char} (h : c ∈ (plain x).toList) :
    isBlank c = false := by
  obtain ⟨n, text, -⟩ := Expression.exists_numeral_plain finite
  exact (Expression.solid_of_mem (text ▸ h)).1

theorem plain_ne_nil (finite : isFinite x = true) : (plain x).toList ≠ [] := by
  obtain ⟨n, text, -⟩ := Expression.exists_numeral_plain finite
  obtain ⟨c, cs, numeral, -⟩ := n.exists_text_eq_cons
  rw [text, signed, numeral]
  split_ifs <;> exact List.cons_ne_nil _ _

theorem exists_foreign_plain (h : isFinite x = false) :
    ∃ c ∈ (plain x).toList, isBlank c = false ∧ Expression.isWritten c = false := by
  -- each of the names has a letter that no expression has
  obtain text | text | text := plain_of_not_finite h
  · exact ⟨'N', by simp [text], by decide, by decide⟩
  · exact ⟨'i', by simp [text], by decide, by decide⟩
  · exact ⟨'i', by simp [text], by decide, by decide⟩

theorem exists_solid_plain (x : Float) : ∃ c ∈ (plain x).toList, isBlank c = false := by
  cases finite : isFinite x with
  | true =>
    obtain ⟨c, there⟩ := List.exists_mem_of_ne_nil _ (plain_ne_nil finite)
    exact ⟨c, there, isBlank_of_mem_plain finite there⟩
  | false =>
    obtain ⟨c, there, solid, -⟩ := exists_foreign_plain finite
    exact ⟨c, there, solid⟩

theorem length_plain_of_not_finite (h : isFinite x = false) : (plain x).length ≤ 500 := by
  obtain text | text | text := plain_of_not_finite h
  all_goals
    rw [text]
    decide

end Decimal

open Decimal (isFinite plain)

variable {x : Float} {limit : Nat}

theorem evaluate_plain (finite : isFinite x = true) (some_level : 1 ≤ limit) :
    evaluate (plain x) limit = .ok x := by
  obtain ⟨t, value, derived⟩ :=
    Expression.exists_tree_signed finite (Expression.exists_numeral_plain finite) 0 0
  obtain ⟨k, rfl⟩ : ∃ k, limit = k + 1 := ⟨limit - 1, by omega⟩
  have whole : Expression.Derives (k + 1) .expression (Source.ofText (plain x)).glyphs t := by
    have alone := Expression.Derives.expression
      (.term (.base (derived k)) .factorsEnd) .summandsEnd
    rwa [List.append_nil, List.append_nil] at alone
  exact Source.evaluate_ok_iff.mpr ⟨t, whole, value⟩

theorem evaluate_plain_of_not_finite (h : isFinite x = false) (limit : Nat) :
    ∃ f, evaluate (plain x) limit = .error f := by
  cases evaluated : evaluate (plain x) limit with
  | error f => exact ⟨f, rfl⟩
  | ok y =>
    obtain ⟨c, there, solid, foreign⟩ := Decimal.exists_foreign_plain h
    rw [isWritten_of_evaluate evaluated there solid] at foreign
    cases foreign

theorem one_le_of_evaluate {text : String} (h : evaluate text limit = .ok x) : 1 ≤ limit := by
  -- an expression opens a level
  obtain ⟨t, derived, -⟩ := Source.evaluate_ok_iff.mp h
  generalize (Source.ofText text).glyphs = gs at derived
  cases derived
  exact Nat.succ_le_succ (Nat.zero_le _)

namespace Request

theorem resolve_plain_finite (finite : isFinite x = true) (some_level : 1 ≤ limit) :
    (ofExpression (plain x)).resolve limit = .ok ⟨plain x, x, none, none, none⟩ := by
  have short : (plain x).length ≤ 500 := (Decimal.length_plain_le finite).trans (by decide)
  rw [resolve_ofExpression (Decimal.exists_solid_plain x) short, Task.run, Task.result,
    evaluate_plain finite some_level]
  rfl

theorem one_le_of_resolve {text : String} {c : Calculation}
    (h : (ofExpression text).resolve limit = .ok c) : 1 ≤ limit :=
  one_le_of_evaluate (eq_of_resolve_ofExpression h).1

theorem resolve_plain_not_finite (h : isFinite x = false) (limit : Nat) :
    ∃ f, (ofExpression (plain x)).resolve limit = .error (.ofFault f) := by
  obtain ⟨f, failed⟩ := evaluate_plain_of_not_finite h limit
  refine ⟨f, ?_⟩
  rw [resolve_ofExpression (Decimal.exists_solid_plain x) (Decimal.length_plain_of_not_finite h),
    Task.run, Task.result, failed]

end Request

namespace CommandLine

variable {a : Arguments}

theorem answer_of_ok {r : Request} {c : Calculation} (inColor : Bool)
    (resolved : r.resolve limit = .ok c) :
    answerIn inColor limit false r = ⟨plain c.result ++ "\n", "", true⟩ := by
  unfold answerIn
  rw [resolved]

theorem answer_plain (inColor : Bool) (finite : isFinite x = true) (some_level : 1 ≤ limit) :
    answerIn inColor limit false (.ofExpression (plain x)) = ⟨plain x ++ "\n", "", true⟩ := by
  rw [answer_of_ok inColor (Request.resolve_plain_finite finite some_level)]

theorem textLines_plain (finite : isFinite x = true) : textLines (plain x ++ "\n") = [plain x] := by
  have solid {c : Char} (blank : isBlank c = true) : c ∉ (plain x).toList := fun there => by
    rw [Decimal.isBlank_of_mem_plain finite there] at blank
    cases blank
  have alone := textLines_more (solid (c := '\n') (by decide)) (solid (by decide)) ""
  rwa [String.append_empty, textLines_empty] at alone

theorem run_encoded_plain (reads : a.readsInput = true) (shown : a.isJson = false)
    (finite : isFinite x = true) (some_level : 1 ≤ a.maxDepth) :
    run a (encoded (plain x ++ "\n")) = ⟨plain x ++ "\n", "", true⟩ := by
  obtain ⟨c, there, solid⟩ := Decimal.exists_solid_plain x
  have kept : nonblank [plain x] = [plain x] := by
    rw [nonblank_cons, if_neg]
    · rfl
    · rw [allBlank, List.all_eq_true]
      exact fun blank => by simp [blank c there] at solid
  rw [run, run_encoded reads, textLines_plain finite, kept, shown, List.map_singleton,
    answer_plain _ finite some_level, Transcript.concat_cons]
  exact Transcript.append_empty

end CommandLine

/-- A finite result, as it is printed, is short enough for a request, and an expression with that
very double as its result; so the printed line of a finite result, given back as the expression or
as the input, is printed again. What is printed of other results is turned down as a
calculation. -/
theorem resolve_plain (x : Float) (limit : Nat) :
    (isFinite x = true → (plain x).length ≤ 500 ∧ (1 ≤ limit →
      (Request.ofExpression (plain x)).resolve limit = .ok ⟨plain x, x, none, none, none⟩)) ∧
    (isFinite x = false → ∃ e, (Request.ofExpression (plain x)).resolve limit = .error e ∧
      e.errors.map Prod.fst = ["calculation"]) ∧
    ∀ (a : CommandLine.Arguments) (text : String) (input : List UInt8) (c : Calculation),
      a.readsInput = true → a.isJson = false →
      (Request.ofExpression text).resolve a.maxDepth = .ok c → isFinite c.result = true →
        let printed := CommandLine.run (a.withExpression text) input
        printed.output = plain c.result ++ "\n" ∧
        CommandLine.run (a.withExpression (plain c.result)) input = printed ∧
        CommandLine.run a (CommandLine.encoded printed.output) = printed := by
  refine ⟨fun finite => ⟨?short, Request.resolve_plain_finite finite⟩, fun infinite => ?refused,
    fun a text input c reads shown resolved finite => ?again⟩
  case short => exact (Decimal.length_plain_le finite).trans (by decide)
  case refused =>
    obtain ⟨f, refused⟩ := Request.resolve_plain_not_finite infinite limit
    exact ⟨_, refused, rfl⟩
  case again =>
    have some_level : 1 ≤ a.maxDepth := Request.one_le_of_resolve resolved
    have printed : CommandLine.run (a.withExpression text) input =
        ⟨plain c.result ++ "\n", "", true⟩ := by
      rw [CommandLine.run, CommandLine.run_withExpression reads, shown,
        CommandLine.answer_of_ok _ resolved]
    dsimp only
    rw [printed]
    refine ⟨rfl, ?_, CommandLine.run_encoded_plain reads shown finite some_level⟩
    rw [CommandLine.run, CommandLine.run_withExpression reads, shown,
      CommandLine.answer_plain _ finite some_level]

/-- The sign of zero is kept, from whatever expression it comes. -/
theorem resolve_minus_zero_and_infinity :
    ((plain (-0)).length ≤ 500 ∧
      (Request.ofExpression (plain (-0))).resolve 1 = .ok ⟨plain (-0), -0, none, none, none⟩) ∧
    (∃ e, (Request.ofExpression (plain Decimal.infinity)).resolve 0 = .error e ∧
      e.errors.map Prod.fst = ["calculation"]) ∧
    CommandLine.run ⟨some 1, false, none, none, none, none⟩ (CommandLine.encoded
      (CommandLine.run ⟨some 1, false, none, none, none, some "0*-1"⟩ []).output) =
        CommandLine.run ⟨some 1, false, none, none, none, some "0*-1"⟩ [] := by
  have zero : isFinite (-0) = true := by decide +kernel
  have infinite : isFinite Decimal.infinity = false := by decide +kernel
  have resolved : (Request.ofExpression "0*-1").resolve 1 =
      .ok ⟨"0*-1", -0, none, none, none⟩ := by
    have evaluated : evaluate "0*-1" 1 = .ok (-0) := by decide +kernel
    rw [Request.resolve_ofExpression ⟨'0', by simp, by decide⟩ (by decide), Request.Task.run,
      Request.Task.result, evaluated]
    rfl
  refine ⟨?_, (resolve_plain _ 0).2.1 infinite, ?_⟩
  · exact ⟨((resolve_plain _ 1).1 zero).1, ((resolve_plain _ 1).1 zero).2 le_rfl⟩
  · exact ((resolve_plain (-0) 1).2.2 ⟨some 1, false, none, none, none, none⟩ "0*-1" [] _ rfl rfl
      resolved zero).2.2

end Abacus
