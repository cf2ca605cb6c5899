import Mathlib
import Abacus.Report

/-!
Where a character of the text is drawn. Its line is the last one that begins at or before it, its
column the number of characters before it there; if it can be seen and a label begins with it, then
one row of the drawing has it in the shade of the label.
-/

namespace Abacus.Report

open Text

variable {before pre post more : List Char} {c : Char} {pieces : List (List Char)}

theorem bounds_of_mem {index start : Nat} {line : Line} (h : line ∈ numberLines index start pieces) :
    index ≤ line.index ∧ start ≤ line.start := by
  induction pieces generalizing index start with
  | nil => cases h
  | cons piece pieces ih =>
    rw [numberLines] at h
    obtain rfl | later := List.mem_cons.mp h
    · exact ⟨le_rfl, le_rfl⟩
    · have := ih later
      omega

theorem eq_of_index_eq {index start : Nat} {line other : Line}
    (h : line ∈ numberLines index start pieces) (h' : other ∈ numberLines index start pieces)
    (same : line.index = other.index) : line = other := by
  induction pieces generalizing index start with
  | nil => cases h
  | cons piece pieces ih =>
    rw [numberLines] at h h'
    obtain rfl | later := List.mem_cons.mp h <;> obtain rfl | later' := List.mem_cons.mp h'
    · rfl
    · have : index = other.index := same
      exact absurd (bounds_of_mem later').1 (by omega)
    · have : line.index = index := same
      exact absurd (bounds_of_mem later).1 (by omega)
    · exact ih later later'

theorem lineAt?_cons {line : Line} {lines : List Line} {byte : Nat} (h : line.start ≤ byte) :
    lineAt? (line :: lines) byte = some ((lineAt? lines byte).getD line) := by
  rw [lineAt?, lineAt?, List.filter_cons_of_pos (by simpa using h), List.getLast?_cons]

theorem lineAt?_eq_none {lines : List Line} {byte : Nat} (h : ∀ line ∈ lines, byte < line.start) :
    lineAt? lines byte = none := by
  have nothing : lines.filter (fun line => line.start ≤ byte) = [] := by simpa using h
  rw [lineAt?, nothing]
  rfl

/-- The line of a character has it, behind as many bytes as there are from where the line starts. -/
theorem exists_lineAt_place (index start : Nat) (text : pieces.flatten = before ++ c :: more) :
    ∃ line pre post, lineAt? (numberLines index start pieces) (start + bytes before) = some line ∧
      line.chars = pre ++ c :: post ∧ line.start + bytes pre = start + bytes before := by
  have size := c.utf8Size_pos
  induction pieces generalizing before index start with
  | nil => simp at text
  | cons piece pieces ih =>
    rw [List.flatten_cons] at text
    rw [numberLines, lineAt?_cons (Nat.le_add_right _ _)]
    have further {skipped : List Char} (eq : before = piece ++ skipped)
        (rest : pieces.flatten = skipped ++ c :: more) : ∃ line pre post,
          some ((lineAt? (numberLines (index + 1) (start + bytes piece) pieces)
            (start + bytes before)).getD ⟨index, start, piece⟩) = some line ∧
          line.chars = pre ++ c :: post ∧ line.start + bytes pre = start + bytes before := by
      obtain ⟨line, pre, post, found, chars, place⟩ := ih (index + 1) (start + bytes piece) rest
      rw [eq, bytes_append, ← Nat.add_assoc]
      exact ⟨line, pre, post, by rw [found]; rfl, chars, place⟩
    obtain ⟨skipped, eq, rest⟩ | ⟨inside, eq, rest⟩ := List.append_eq_append_iff.mp text
    · exact further eq rest
    · cases inside with
      | nil =>
        rw [List.nil_append] at rest
        rw [List.append_nil] at eq
        exact further (by rw [eq, List.append_nil]) rest.symm
      | cons d inside =>
        obtain ⟨rfl, -⟩ := List.cons.inj rest
        have later : lineAt? (numberLines (index + 1) (start + bytes piece) pieces)
            (start + bytes before) = none := by
          refine lineAt?_eq_none fun line there => ?_
          have := (bounds_of_mem there).2
          rw [eq, bytes_append, bytes_cons] at this
          omega
        rw [later]
        exact ⟨_, before, inside, rfl, eq, rfl⟩

theorem charsWithin_append (n : Nat) (pre cs : List Char) :
    charsWithin (bytes pre + n) (pre ++ cs) = pre.length + charsWithin n cs := by
  induction pre with
  | nil => simp
  | cons d pre ih =>
    have size := d.utf8Size_pos
    have rest : bytes (d :: pre) + n - d.utf8Size = bytes pre + n := by
      rw [bytes_cons]
      omega
    have some_byte : bytes (d :: pre) + n ≠ 0 := by
      rw [bytes_cons]
      omega
    rw [List.cons_append, charsWithin, if_neg some_byte, rest, ih, List.length_cons]
    omega

theorem charsWithin_zero (cs : List Char) : charsWithin 0 cs = 0 := by
  cases cs <;> rfl

theorem getElem?_trimEnd (solid : isBlank c = false) :
    (trimEnd (pre ++ c :: post))[pre.length]? = some c := by
  have kept : (c :: pre.reverse).dropWhile isBlank = c :: pre.reverse :=
    List.dropWhile_cons_of_neg (by simp [solid])
  have text : (pre ++ c :: post).reverse = post.reverse ++ c :: pre.reverse := by simp
  rw [trimEnd, text, List.dropWhile_append]
  split_ifs
  · rw [kept]
    simp
  · simp

theorem shown_of_solid (solid : isBlank c = false) (column : Nat) : shown column c = [c] := by
  have no_tab : c ≠ '\t' := by
    rintro rfl
    cases solid
  rw [shown, if_neg no_tab, if_neg (by simp [solid])]

theorem mem_sourceText {label : Label} {line : Line} {column : Nat}
    (there : line.drawn[column]? = some c) (solid : isBlank c = false)
    (covered : label.covers line column = true) :
    shaded labelShade [c] ∈ sourceText label line := by
  rw [sourceText, List.mem_flatten]
  refine ⟨strokes labelShade (shown column c), List.mem_map.mpr ⟨(c, column), ?_, ?_⟩, ?_⟩
  · exact List.mem_zipIdx_iff_getElem?.mpr there
  · dsimp only
    rw [if_pos covered]
  · rw [shown_of_solid solid]
    exact List.mem_singleton.mpr rfl

theorem exists_labeled {cs : List Char} {span : Span} {label : Label}
    (text : cs = before ++ c :: more) (start : span.start = bytes before)
    (some_byte : span.start < span.stop)
    (labeled : Label.ofSpan? (linesOf cs) span = some label) : ∃ pre post,
      label.first.chars = pre ++ c :: post ∧ label.covers label.first pre.length = true := by
  have pieces : (cutLines cs).flatten = before ++ c :: more := (flatten_cutLines cs).trans text
  obtain ⟨line, pre, post, found, chars, place⟩ := exists_lineAt_place 0 0 pieces
  rw [Nat.zero_add, ← start] at found
  have not_empty : span.isEmpty = false := by simp [Span.isEmpty, some_byte]
  have left : line.columnOf span.start = pre.length := by
    have behind : span.start - line.start = bytes pre + 0 := by omega
    rw [Line.columnOf, behind, chars, charsWithin_append, charsWithin_zero]
    rfl
  simp only [Label.ofSpan?, linesOf, found, not_empty, left, Option.bind_eq_bind, Option.bind_some,
    Bool.false_eq_true, if_false, Option.bind_eq_some_iff, Option.pure_def,
    Option.some.injEq] at labeled
  obtain ⟨last, found', rfl⟩ := labeled
  refine ⟨pre, post, chars, ?_⟩
  rw [Label.covers]
  by_cases same : line.index = last.index
  · have member := List.mem_of_mem_filter (List.mem_of_getLast? found)
    have member' := List.mem_of_mem_filter (List.mem_of_getLast? found')
    obtain rfl := eq_of_index_eq member member' same
    -- in its own line the label ends behind the character
    have right : pre.length < line.columnOf span.stop := by
      have behind : span.stop - line.start = bytes pre + (span.stop - span.start) := by omega
      have some_more : span.stop - span.start ≠ 0 := by omega
      rw [Line.columnOf, behind, chars, charsWithin_append, charsWithin, if_neg some_more]
      omega
    simpa using right
  · simp [same]

/-- The rows under the header have the line where the label begins, with its character in the shade
of the label. -/
theorem exists_row {cs : List Char} {span : Span} {label : Label}
    (text : cs = before ++ c :: more) (solid : isBlank c = false) (start : span.start = bytes before)
    (some_byte : span.start < span.stop)
    (labeled : Label.ofSpan? (linesOf cs) span = some label) (d : Diagnostic) :
    ∃ row ∈ drawing d label, shaded labelShade [c] ∈ row := by
  obtain ⟨pre, post, chars, covered⟩ := exists_labeled text start some_byte labeled
  have shown : shaded labelShade [c] ∈ sourceText label label.first := by
    refine mem_sourceText ?_ solid covered
    rw [Line.drawn, chars, getElem?_trimEnd solid]
  have drawn (digits : Nat) : ∃ row ∈ (if label.isSingleLine then singleLine digits label d.message
      else acrossLines digits label d.message), shaded labelShade [c] ∈ row := by
    split_ifs
    · exact ⟨_, List.mem_cons_self, List.mem_append_right _ shown⟩
    · exact ⟨_, List.mem_cons_self, List.mem_append_right _ shown⟩
  obtain ⟨row, there, has⟩ := drawn (Nat.toDigits 10 label.last.number).length
  refine ⟨row, ?_, has⟩
  rw [drawing]
  simp only [List.mem_append]
  exact .inl (.inl (.inr there))

end Abacus.Report
