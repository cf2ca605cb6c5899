import Mathlib
import Abacus.Proofs.Expression.Evaluation
import Abacus.Proofs.Source

/-!
Where a fault points in the text as typed. Its span cuts the text in three; what stands before it
without blanks is what the position counts, and what it marks is what the cause speaks of.
-/

namespace Abacus

open Text

def Cause.position? : Cause → Option Nat
  | unexpectedCharacter _ p | expectedNumber _ p => some p
  | invalidNumber _ p | expectedCharacter _ _ p => some p
  | emptyExpression | divisionByZero | negativeSquareRoot | tooDeeplyNested _ => none

def Cause.Found (cs before marked : List Char) (p : Nat) : Option Char → Prop
  | some c => marked = [c]
  | none => p = bytes (stripped cs) ∧ before = cs ∧ marked = []

/-- What a cause says of the pieces that a text is cut into. -/
def Cause.Marks (cs before marked : List Char) (limit : Nat) : Cause → Prop
  | emptyExpression => False
  | unexpectedCharacter c _ => marked = [c]
  | expectedNumber found p | expectedCharacter _ found p => Found cs before marked p found
  | invalidNumber text _ => marked = text.toList
  | divisionByZero => marked = ['/']
  | negativeSquareRoot => ∃ inner, Expression.Balanced inner ∧
    stripped marked = "sqrt(".toList ++ (inner ++ [')'])
  | tooDeeplyNested n => n = limit ∧ Expression.Opening (stripped before) limit ∧
    ((∃ c, marked = [c] ∧ isBlank c = false) ∨ 0 < limit ∧ before = cs ∧ marked = [])

structure Fault.Located (f : Fault) (cs : List Char) (limit : Nat) (span : Span)
    (before marked after : List Char) : Prop where
  cuts : span.Cuts cs before marked after
  position : ∀ p ∈ f.cause.position?, bytes (stripped before) = p
  marks : f.cause.Marks cs before marked limit

namespace Expression

theorem contiguous_offset {g last : Glyph} {gs : List Glyph}
    (h : Contiguous (g :: (gs ++ [last]))) : last.offset = g.offset + (gs.length + 1) := by
  induction gs generalizing g with
  | nil =>
    have adjacent := (List.isChain_cons_cons.mp h).1
    simpa [Glyph.isFollowedBy] using adjacent
  | cons next gs ih =>
    obtain ⟨adjacent, more⟩ := List.isChain_cons_cons.mp h
    have step : next.offset = g.offset + 1 := by simpa [Glyph.isFollowedBy] using adjacent
    rw [ih more, step, List.length_cons]
    omega

theorem utf8Size_of_isNumeric {c : Char} (h : Literal.isNumeric c = true) : c.utf8Size = 1 := by
  have ascii : c.toNat ≤ 127 := by
    obtain digit | rfl : c.isDigit = true ∨ c = '.' := by simpa [Literal.isNumeric] using h
    · exact (Char.isDigit_iff_toNat.mp digit).2.trans (by decide)
    · decide
  have small : c.val ≤ 0x7F := ascii
  simp [Char.utf8Size, small]

theorem cuts_run {cs : List Char} {gs run rest : List Glyph}
    (h : (Source.ofChars cs).glyphs = gs ++ (run ++ rest)) (some_glyph : run ≠ [])
    (contiguous : Contiguous run) (numeric : ∀ g ∈ run, Literal.isNumeric g.char = true) :
    ∃ before after, (Literal.span (Source.ofChars cs) run rest).Cuts cs before
        (run.map Glyph.char) after ∧ stripped before = gs.map Glyph.char ∧
      (Source.ofChars cs).position (run ++ rest) = bytes (stripped before) := by
  obtain ⟨hs, last, rfl⟩ := List.eq_nil_or_concat' run |>.resolve_left some_glyph
  have size := utf8Size_of_isNumeric (numeric last (by simp))
  rw [List.append_assoc, List.singleton_append] at h
  obtain ⟨before, inside, after, cuts, chars, chars', place, offset⟩ := Source.cuts_between size h
  have length : last.offset = bytes before + hs.length := by
    have start := cuts.start_eq
    cases hs with
    | nil => simpa [Glyph.span] using start
    | cons g hs =>
      rw [contiguous_offset contiguous, ← start]
      rfl
  have unbroken : stripped inside = inside := by
    refine stripped_eq_self ?_
    have := length_le_bytes (stripped inside)
    rw [chars', List.length_map] at this
    rw [chars']
    omega
  rw [unbroken] at chars'
  refine ⟨before, after, ?_, chars, ?_⟩
  · simpa [Literal.span, chars'] using cuts
  · simpa using place

theorem found_at_end {cs before after : List Char} {post : List Glyph}
    (cuts : ((Source.ofChars cs).span post).Cuts cs before (post.head?.map Glyph.char).toList after)
    (ends : post = [] → after = [])
    (counted : (Source.ofChars cs).position post = bytes (stripped before)) :
    Cause.Found cs before (post.head?.map Glyph.char).toList ((Source.ofChars cs).position post)
      (post.head?.map Glyph.char) := by
  cases post with
  | nil =>
    obtain rfl : cs = before := by simpa [ends rfl] using cuts.text_eq
    exact ⟨counted, rfl, rfl⟩
  | cons g post => rfl

theorem Points.located {cs : List Char} {limit : Nat} {f : Fault}
    (h : Points (Source.ofChars cs) limit f) (some_glyph : (Source.ofChars cs).glyphs ≠ []) :
    ∃ span before marked after,
      f.span = some span ∧ f.Located cs limit span before marked after := by
  cases h with
  | @unexpectedCharacter pre g post place =>
    obtain ⟨before, after, cuts, chars, counted, -⟩ := Source.cuts_span place
    refine ⟨_, before, [g.char], after, rfl, cuts, ?_, rfl⟩
    simpa [Cause.position?] using counted.symm
  | @expectedNumber pre post place =>
    obtain ⟨before, after, cuts, chars, counted, ends⟩ := Source.cuts_span place
    refine ⟨_, before, _, after, rfl, cuts, ?_, found_at_end cuts ends counted⟩
    simpa [Cause.position?] using counted.symm
  | @expectedCharacter pre post c place =>
    obtain ⟨before, after, cuts, chars, counted, ends⟩ := Source.cuts_span place
    refine ⟨_, before, _, after, rfl, cuts, ?_, found_at_end cuts ends counted⟩
    simpa [Cause.position?] using counted.symm
  | @invalidNumber pre run post place something contiguous numeric =>
    obtain ⟨before, after, cuts, chars, counted⟩ := cuts_run place something contiguous numeric
    refine ⟨_, before, _, after, rfl, cuts, ?_, ?_⟩
    · simpa [Cause.position?] using counted.symm
    · simp [Cause.Marks]
  | @divisionByZero pre g post place char =>
    obtain ⟨before, after, cuts, chars, -⟩ := Source.cuts_span place
    refine ⟨_, before, [g.char], after, rfl, cuts, by simp [Cause.position?], ?_⟩
    simp [Cause.Marks, char]
  | @negativeSquareRoot pre call inner close post place word balanced closed =>
    have size : close.char.utf8Size = 1 := by rw [closed]; decide
    have solid : stripped [')'] = [')'] := by decide
    rw [← List.append_assoc call] at place
    obtain ⟨before, inside, after, cuts, chars, chars', -⟩ := Source.cuts_between size place
    refine ⟨_, before, _, after, rfl, by simpa using cuts, by simp [Cause.position?], _, balanced,
      ?_⟩
    rw [stripped_append, chars', closed, solid, List.map_append, word, List.append_assoc]
    rfl
  | @tooDeeplyNested pre post place opening =>
    obtain ⟨before, after, cuts, chars, -, ends⟩ := Source.cuts_span place
    refine ⟨_, before, _, after, rfl, cuts, by simp [Cause.position?], rfl, ?_, ?_⟩
    · rwa [chars]
    · cases post with
      | nil =>
        -- an empty text has been excluded, so at the end a bracket is open
        refine .inr ⟨?_, by simpa [ends rfl] using cuts.text_eq.symm, rfl⟩
        rw [List.append_nil] at place
        have some_char : pre.map Glyph.char ≠ [] := by simpa [place] using some_glyph
        cases limit with
        | zero => exact absurd (opening.eq_nil) some_char
        | succ limit => exact Nat.succ_pos limit
      | cons g post =>
        have member : g ∈ (Source.ofChars cs).glyphs := by simp [place]
        exact .inl ⟨g.char, rfl, Source.isBlank_of_mem_glyphs member⟩

end Expression

/-- Every fault but that of an empty text points into the text: at cut points, with as many bytes
before it as its position counts, at what its cause speaks of. -/
theorem evaluate_error_located {text : String} {limit : Nat} {f : Fault}
    (h : evaluate text limit = .error f) : (f.span = none ↔ f.cause = .emptyExpression) ∧
      ∀ span ∈ f.span, span.start ≤ span.stop ∧ span.stop ≤ bytes text.toList ∧
        (∀ p ∈ f.cause.position?, p ≤ bytes (stripped text.toList)) ∧
        ∃ before marked after, f.Located text.toList limit span before marked after := by
  by_cases nothing : (Source.ofText text).glyphs = []
  · have empty := h.symm.trans (Source.evaluate_nil nothing)
    obtain rfl := Except.error.inj empty
    simp
  · obtain ⟨v, evaluated, -⟩ | ⟨f', failed, points⟩ :=
      Source.evaluate_ends nothing (Expression.sound_whole (Source.ofText text) limit)
    · exact absurd (h.symm.trans evaluated) (by simp)
    · obtain rfl : f = f' := Except.error.inj (h.symm.trans failed)
      obtain ⟨span, before, marked, after, points_at, located⟩ := points.located nothing
      have marks := located.marks
      rw [points_at]
      constructor
      · constructor
        · simp
        · intro empty
          simp [empty, Cause.Marks] at marks
      · intro span' hspan
        obtain rfl := Option.some.inj hspan
        have text_eq := located.cuts.text_eq
        have start_eq := located.cuts.start_eq
        have stop_eq := located.cuts.stop_eq
        have size := congrArg bytes text_eq
        simp only [bytes_append] at size
        refine ⟨by omega, by omega, fun p hp => ?_, before, marked, after, located⟩
        rw [← located.position p hp, text_eq, stripped_append, bytes_append]
        omega

theorem evaluate_bracket_located : evaluate "( (1))" 1 = .error ⟨.tooDeeplyNested 1, some ⟨2, 3⟩⟩ ∧
    ∃ before marked after, Fault.Located ⟨.tooDeeplyNested 1, some ⟨2, 3⟩⟩ "( (1))".toList 1 ⟨2, 3⟩
      before marked after := by
  have failed : evaluate "( (1))" 1 = .error ⟨.tooDeeplyNested 1, some ⟨2, 3⟩⟩ := by decide +kernel
  exact ⟨failed, ((evaluate_error_located failed).2 ⟨2, 3⟩ rfl).2.2.2⟩

end Abacus
