import Mathlib
import Abacus.Proofs.Expression.Location
import Abacus.Proofs.Report.Rows

/-!
Where the report of a fault points in the text the fault came from. What a fault marks begins and
ends with something that can be seen, or it is the empty end of the text, and then the label goes to
the last character that can be seen; so every report of a text that is not blank has a label, and
under it there is something to see.
-/

namespace Abacus

open Text

namespace Text

theorem exists_trimEnd {cs : List Char} (h : allBlank cs = false) : ∃ before c after,
    cs = before ++ c :: after ∧ isBlank c = false ∧ stripped after = [] ∧
      trimEnd cs = before ++ [c] := by
  induction cs using List.reverseRecOn with
  | nil => cases h
  | append_singleton cs d ih =>
    cases blank : isBlank d with
    | true =>
      obtain ⟨before, c, after, rfl, solid, blanks, trimmed⟩ := ih (by simpa [allBlank, blank] using h)
      refine ⟨before, c, after ++ [d], by simp, solid, ?_, ?_⟩
      · rw [stripped_append, blanks, stripped_cons_blank blank, stripped_nil, List.append_nil]
      · exact (List.rdropWhile_concat_pos isBlank _ d blank).trans trimmed
    | false =>
      refine ⟨cs, d, [], rfl, blank, rfl, ?_⟩
      exact List.rdropWhile_concat_neg isBlank cs d (by simp [blank])

theorem HasVisibleEnds.ne_nil {cs : List Char} (h : HasVisibleEnds cs) : cs ≠ [] := by
  obtain ⟨c, there, -⟩ := h.head
  exact List.ne_nil_of_mem (List.mem_of_head? there)

theorem HasVisibleEnds.bytes_pos {cs : List Char} (h : HasVisibleEnds cs) : 0 < bytes cs := by
  have := length_le_bytes cs
  have := List.length_pos_iff.mpr h.ne_nil
  omega

end Text

def Span.IsVisible (span : Span) (cs : List Char) : Prop :=
  ∃ before marked after, span.Cuts cs before marked after ∧ HasVisibleEnds marked

namespace Span.IsVisible

variable {span : Span} {cs : List Char}

theorem bounds (h : span.IsVisible cs) : span.start < span.stop ∧ span.stop ≤ bytes cs := by
  obtain ⟨before, marked, after, cuts, ends⟩ := h
  have positive := ends.bytes_pos
  have := cuts.start_eq
  have := cuts.stop_eq
  have text := congrArg bytes cuts.text_eq
  rw [bytes_append, bytes_append] at text
  omega

theorem allBlank_eq (h : span.IsVisible cs) : allBlank cs = false := by
  obtain ⟨before, marked, after, cuts, ends⟩ := h
  obtain ⟨c, there, solid⟩ := ends.head
  have member : c ∈ cs := by simp [cuts.text_eq, List.mem_of_head? there]
  rw [allBlank, List.all_eq_false]
  exact ⟨c, member, by simp [solid]⟩

end Span.IsVisible

namespace Expression

variable {cs : List Char} {limit : Nat}

theorem isVisible_run {gs hs rest : List Glyph} {last : Glyph}
    (place : (Source.ofChars cs).glyphs = gs ++ (hs ++ last :: rest))
    (size : last.char.utf8Size = 1) :
    Span.IsVisible ⟨((Source.ofChars cs).span (hs ++ last :: rest)).start, last.offset + 1⟩ cs := by
  obtain ⟨before, inside, after, cuts, ends, -⟩ := Source.cuts_glyphs place
  rw [size] at cuts
  exact ⟨before, _, after, cuts, ends⟩

theorem isVisible_span {gs hs : List Glyph} (place : (Source.ofChars cs).glyphs = gs ++ hs) :
    ((Source.ofChars cs).span hs).IsVisible cs ∨ (Source.ofChars cs).span hs = ⟨bytes cs, bytes cs⟩ := by
  cases hs with
  | nil => exact .inr rfl
  | cons g rest =>
    have alone : (Source.ofChars cs).glyphs = gs ++ ([] ++ g :: rest) := place
    obtain ⟨before, inside, after, cuts, ends, -⟩ := Source.cuts_glyphs alone
    exact .inl ⟨before, _, after, cuts, ends⟩

theorem Points.isVisible {f : Fault} (h : Points (Source.ofChars cs) limit f) :
    ∃ span, f.span = some span ∧ (span.IsVisible cs ∨ span = ⟨bytes cs, bytes cs⟩) := by
  cases h with
  | unexpectedCharacter place => exact ⟨_, rfl, isVisible_span place⟩
  | expectedNumber place => exact ⟨_, rfl, isVisible_span place⟩
  | expectedCharacter place => exact ⟨_, rfl, isVisible_span place⟩
  | divisionByZero place => exact ⟨_, rfl, isVisible_span place⟩
  | tooDeeplyNested place => exact ⟨_, rfl, isVisible_span place⟩
  | @invalidNumber gs run rest place some_glyph _ numeric =>
    obtain ⟨hs, last, rfl⟩ := List.eq_nil_or_concat' run |>.resolve_left some_glyph
    rw [List.append_assoc, List.singleton_append] at place
    have visible := isVisible_run place (utf8Size_of_isNumeric (numeric last (by simp)))
    refine ⟨_, rfl, .inl ?_⟩
    simpa [Literal.span] using visible
  | @negativeSquareRoot gs call inner close rest place word _ closed =>
    rw [← List.append_assoc call] at place ⊢
    exact ⟨_, rfl, .inl (isVisible_run place (by rw [closed]; decide))⟩

end Expression

namespace Report

variable {cs : List Char} {span : Span}

theorem labelSpan?_blank (blank : allBlank cs = true) (span : Option Span) :
    labelSpan? cs span = none := by
  cases span with
  | none => rfl
  | some span => rw [labelSpan?, if_pos blank]

theorem labelSpan?_visible (h : span.IsVisible cs) : labelSpan? cs (some span) = some span := by
  obtain ⟨some_byte, inside⟩ := h.bounds
  have start : min span.start (bytes cs) = span.start := by omega
  have stop : min span.stop (bytes cs) = span.stop := by omega
  rw [labelSpan?, if_neg (by simp [h.allBlank_eq]), start, stop]
  exact if_pos some_byte

/-- Which range is labeled for what is marked: a span that is not empty stands for itself, and the
empty span at the end of the text for the last character before it that can be seen. -/
inductive Labels (cs : List Char) : Span → Span → Prop
  | marked {span : Span} : span.isEmpty = false → span.IsVisible cs → Labels cs span span
  | last {range : Span} {before after : List Char} {c : Char} : range.Cuts cs before [c] after →
      isBlank c = false → stripped after = [] → Labels cs ⟨bytes cs, bytes cs⟩ range

theorem Labels.isVisible {range : Span} (h : Labels cs span range) : range.IsVisible cs := by
  cases h with
  | marked _ visible => exact visible
  | last cuts solid _ => exact ⟨_, _, _, cuts, ⟨_, rfl, solid⟩, ⟨_, rfl, solid⟩⟩

theorem lastCharacter_concat (before : List Char) (c : Char) :
    lastCharacter (before ++ [c]) = ⟨bytes before, bytes before + c.utf8Size⟩ := by
  simp [lastCharacter]

theorem labelSpan?_end (h : allBlank cs = false) :
    ∃ range, labelSpan? cs (some ⟨bytes cs, bytes cs⟩) = some range ∧
      Labels cs ⟨bytes cs, bytes cs⟩ range := by
  obtain ⟨before, c, after, text, solid, blanks, trimmed⟩ := exists_trimEnd h
  have fits : bytes (before ++ [c]) ≤ bytes cs := by simp [text]
  refine ⟨⟨bytes before, bytes before + c.utf8Size⟩, ?_, .last ⟨text, rfl, by simp⟩ solid blanks⟩
  rw [labelSpan?, if_neg (by simp [h])]
  simp only [Nat.min_self, lt_irrefl, if_false, trimmed, if_pos fits, lastCharacter_concat]

theorem exists_labels (h : allBlank cs = false)
    (marks : span.IsVisible cs ∨ span = ⟨bytes cs, bytes cs⟩) :
    ∃ range, labelSpan? cs (some span) = some range ∧ Labels cs span range := by
  obtain visible | rfl := marks
  · refine ⟨span, labelSpan?_visible visible, .marked ?_ visible⟩
    simp [Span.isEmpty, visible.bounds.1]
  · exact labelSpan?_end h

theorem exists_lineAt (h : cs ≠ []) (byte : Nat) : ∃ line, lineAt? (linesOf cs) byte = some line := by
  rw [← Option.isSome_iff_exists, lineAt?, List.getLast?_isSome, linesOf]
  cases lines : cutLines cs with
  | nil =>
    have text := flatten_cutLines cs
    rw [lines, List.flatten_nil] at text
    exact absurd text.symm h
  | cons first more =>
    rw [numberLines, List.filter_cons_of_pos (by simp)]
    exact List.cons_ne_nil _ _

theorem exists_label (h : cs ≠ []) (span : Span) :
    ∃ label, Label.ofSpan? (linesOf cs) span = some label := by
  obtain ⟨first, hfirst⟩ := exists_lineAt h span.start
  obtain ⟨last, hlast⟩ := exists_lineAt h (span.stop - 1)
  rw [Label.ofSpan?, hfirst, hlast]
  cases empty : span.isEmpty <;> simp

theorem ofFault_of_none {text : String} {f : Fault}
    (h : labelSpan? text.toList f.diagnostic.span = none) (inColor : Bool) :
    ofFault text inColor f = plain f.diagnostic := by
  rw [ofFault, h]
  rfl

theorem ofFault_of_label {text : String} {f : Fault} {range : Span} {label : Label}
    (h : labelSpan? text.toList f.diagnostic.span = some range)
    (drawn : Label.ofSpan? (linesOf text.toList) range = some label) (inColor : Bool) :
    ofFault text inColor f = paint inColor (drawing f.diagnostic label) := by
  rw [ofFault, h]
  simp only [Option.bind_eq_bind, Option.bind_some, drawn]

theorem exists_drawn {range : Span} {label : Label} (visible : range.IsVisible cs)
    (labeled : Label.ofSpan? (linesOf cs) range = some label) (d : Diagnostic) :
    ∃ before c marked after, range.Cuts cs before (c :: marked) after ∧ isBlank c = false ∧
      ∃ row ∈ drawing d label, shaded labelShade [c] ∈ row := by
  have some_byte := visible.bounds.1
  obtain ⟨before, marked, after, cuts, ends⟩ := visible
  obtain ⟨c, first, solid⟩ := ends.head
  obtain ⟨more, rfl⟩ := List.head?_eq_some_iff.mp first
  have text : cs = before ++ c :: (more ++ after) := by
    rw [cuts.text_eq, List.cons_append]
  exact ⟨before, c, more, after, cuts, solid,
    exists_row text solid cuts.start_eq some_byte labeled d⟩

/-- The report of a fault in the text it came from. For a blank text it is plain, as there is
nothing to point at. For any other it is drawn, with a label that begins and ends with something
that can be seen: what the fault marks, or the last character if something is missing at the end.
One row of the drawing has the first character of the label in its shade. -/
theorem labelSpan?_of_error {text : String} {limit : Nat} {f : Fault}
    (h : evaluate text limit = .error f) :
    (allBlank text.toList = true → labelSpan? text.toList f.diagnostic.span = none ∧
      ∀ inColor, ofFault text inColor f = plain f.diagnostic) ∧
    (allBlank text.toList = false → ∃ span range label, f.span = some span ∧
      labelSpan? text.toList f.diagnostic.span = some range ∧
      range.IsVisible text.toList ∧ Labels text.toList span range ∧
      Label.ofSpan? (linesOf text.toList) range = some label ∧
      (∀ inColor, ofFault text inColor f = paint inColor (drawing f.diagnostic label)) ∧
      ∃ before c marked after, range.Cuts text.toList before (c :: marked) after ∧
        isBlank c = false ∧ ∃ row ∈ drawing f.diagnostic label, shaded labelShade [c] ∈ row) := by
  constructor
  · intro blank
    have none_labeled := labelSpan?_blank blank f.diagnostic.span
    exact ⟨none_labeled, ofFault_of_none none_labeled⟩
  · intro visible
    have some_glyph : (Source.ofText text).glyphs ≠ [] := by
      rw [ne_eq, Source.ofText, Source.glyphs_eq_nil_iff, ← allBlank_iff, visible]
      simp
    have some_char : text.toList ≠ [] := by
      rintro nothing
      simp [nothing, allBlank] at visible
    have points := Source.evaluate_error some_glyph (Expression.sound_whole _ limit) h
    obtain ⟨span, marked, marks⟩ := points.isVisible
    obtain ⟨range, labeled, labels⟩ := exists_labels visible marks
    rw [← marked] at labeled
    obtain ⟨label, drawn⟩ := exists_label some_char range
    exact ⟨span, range, label, marked, labeled, labels.isVisible, labels, drawn,
      ofFault_of_label labeled drawn, exists_drawn labels.isVisible drawn f.diagnostic⟩

/-- A bracket is missing behind a wide blank, and a text that is nothing but that blank. -/
theorem labelSpan?_bracket_and_blank :
    (Span.IsVisible ⟨1, 2⟩ "(1\u3000".toList ∧
      labelSpan? "(1\u3000".toList (some ⟨5, 5⟩) = some ⟨1, 2⟩ ∧
      Labels "(1\u3000".toList ⟨5, 5⟩ ⟨1, 2⟩ ∧
      ∃ label, Label.ofSpan? (linesOf "(1\u3000".toList) ⟨1, 2⟩ = some label ∧
        ∃ row ∈ drawing (Fault.diagnostic ⟨.expectedCharacter ')' none 2, some ⟨5, 5⟩⟩) label,
          shaded labelShade ['1'] ∈ row) ∧
    ∀ inColor, ofFault "\u3000" inColor ⟨.emptyExpression, none⟩ =
      "[C001] Error: Empty expression.\nHelp: Type an expression such as `2 + 3`\n" := by
  have failed : evaluate "(1\u3000" 50 =
      .error ⟨.expectedCharacter ')' none 2, some ⟨5, 5⟩⟩ := by decide +kernel
  have empty : evaluate "\u3000" 50 = .error ⟨.emptyExpression, none⟩ := by decide +kernel
  have here : labelSpan? "(1\u3000".toList (some ⟨5, 5⟩) = some ⟨1, 2⟩ := by decide
  obtain ⟨span, range, label, marked, labeled, visible, labels, drawn, -, before, c, more, after,
    cuts, -, row⟩ := (labelSpan?_of_error failed).2 (by decide)
  obtain rfl := Option.some.inj marked
  obtain rfl : range = ⟨1, 2⟩ := Option.some.inj (labeled.symm.trans here)
  have one : c = '1' := by
    have text : ['(', '1', '\u3000'] = before ++ (c :: more ++ after) := cuts.text_eq
    have start : 1 = bytes before := cuts.start_eq
    obtain _ | ⟨d, _ | ⟨e, before⟩⟩ := before
    · cases start
    · exact (List.cons.inj (List.cons.inj text).2).1.symm
    · have := d.utf8Size_pos
      have := e.utf8Size_pos
      simp only [bytes_cons] at start
      omega
  exact ⟨⟨visible, here, labels, label, drawn, one ▸ row⟩,
    ((labelSpan?_of_error empty).1 (by decide)).2⟩

end Report

end Abacus
