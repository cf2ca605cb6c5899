import Mathlib
import Abacus.Proofs.Report.Label

/-!
Where a report points in a text that the fault need not have come from. The span is cut to the text,
and what is left of it is labeled. When nothing is left the label is empty, where the span begins;
but behind everything that can be seen it goes back to the last character there is to see.
-/

namespace Abacus

open Text

namespace Span

variable {span : Span} {size : Nat}

def cutTo (span : Span) (size : Nat) : Span :=
  ⟨min span.start size, min span.stop size⟩

theorem stop_cutTo_le (span : Span) (size : Nat) : (span.cutTo size).stop ≤ size :=
  Nat.min_le_right _ _

theorem start_cutTo_of_lt (h : (span.cutTo size).start < size) :
    (span.cutTo size).start = span.start := by
  have within : min span.start size < size := h
  exact Nat.min_eq_left (by omega)

theorem isEmpty_eq_false_iff (span : Span) : span.isEmpty = false ↔ span.start < span.stop := by
  simp [isEmpty]

end Span

namespace Report

variable {cs : List Char} {span : Span}

/-- The range is that of the last character that can be seen. -/
def IsLastVisible (range : Span) (cs : List Char) : Prop :=
  ∃ before c after, range.Cuts cs before [c] after ∧ isBlank c = false ∧ stripped after = []

theorem IsLastVisible.bounds {range : Span} (h : IsLastVisible range cs) :
    range.start < range.stop ∧ range.stop ≤ bytes cs := by
  obtain ⟨before, c, after, cuts, -, -⟩ := h
  have positive := c.utf8Size_pos
  have start := cuts.start_eq
  have stop := cuts.stop_eq
  rw [bytes_cons, bytes_nil] at stop
  rw [cuts.text_eq, bytes_append, bytes_append, bytes_cons]
  omega

theorem isLastVisible_lastCharacter (h : allBlank cs = false) :
    IsLastVisible (lastCharacter (trimEnd cs)) cs := by
  obtain ⟨before, c, after, text, solid, blanks, trimmed⟩ := exists_trimEnd h
  rw [trimmed, lastCharacter_concat]
  exact ⟨before, c, after, ⟨text, rfl, by simp⟩, solid, blanks⟩

theorem labelSpan?_eq (h : allBlank cs = false) (span : Span) : labelSpan? cs (some span) =
    some (if (span.cutTo (bytes cs)).start < (span.cutTo (bytes cs)).stop then
        span.cutTo (bytes cs)
      else if (lastCharacter (trimEnd cs)).stop ≤ (span.cutTo (bytes cs)).start then
        lastCharacter (trimEnd cs)
      else ⟨(span.cutTo (bytes cs)).start, (span.cutTo (bytes cs)).start⟩) := by
  rw [labelSpan?, if_neg (by simp [h])]
  unfold Span.cutTo lastCharacter
  dsimp only
  split_ifs <;> rfl

theorem labelSpan?_eq_none_iff {marked : Option Span} :
    labelSpan? cs marked = none ↔ marked = none ∨ allBlank cs = true := by
  cases marked with
  | none => simp [labelSpan?]
  | some span =>
    cases blank : allBlank cs with
    | true => simp [labelSpan?_blank blank]
    | false => simp [labelSpan?_eq blank]

theorem labelSpan?_inside (h : allBlank cs = false)
    (left : (span.cutTo (bytes cs)).isEmpty = false) :
    labelSpan? cs (some span) = some (span.cutTo (bytes cs)) := by
  rw [labelSpan?_eq h, if_pos ((Span.isEmpty_eq_false_iff _).mp left)]

theorem labelSpan?_before (h : allBlank cs = false)
    (nothing : (span.cutTo (bytes cs)).isEmpty = true)
    (seen : (span.cutTo (bytes cs)).start < (lastCharacter (trimEnd cs)).stop) :
    labelSpan? cs (some span) = some ⟨span.start, span.start⟩ := by
  have within := (isLastVisible_lastCharacter h).bounds.2
  have start := Span.start_cutTo_of_lt (seen.trans_le within)
  rw [labelSpan?_eq h, if_neg (Nat.not_lt.mpr ((Span.isEmpty_iff _).mp nothing)),
    if_neg (Nat.not_le.mpr seen), start]

theorem labelSpan?_behind (h : allBlank cs = false)
    (nothing : (span.cutTo (bytes cs)).isEmpty = true)
    (behind : (lastCharacter (trimEnd cs)).stop ≤ (span.cutTo (bytes cs)).start) :
    labelSpan? cs (some span) = some (lastCharacter (trimEnd cs)) := by
  rw [labelSpan?_eq h, if_neg (Nat.not_lt.mpr ((Span.isEmpty_iff _).mp nothing)), if_pos behind]

/-- Whatever a report marks, in whatever text: with nothing marked or nothing to see there is no
label. Otherwise the label lies within the text, and it is not empty, unless nothing is left of the
span before the end of what can be seen. -/
theorem labelSpan?_of_any (text : String) (d : Diagnostic) :
    (labelSpan? text.toList d.span = none ↔ d.span = none ∨ allBlank text.toList = true) ∧
    ∀ span, d.span = some span → allBlank text.toList = false → ∃ range left last,
      labelSpan? text.toList d.span = some range ∧
      left = span.cutTo (bytes text.toList) ∧ IsLastVisible last text.toList ∧
      range.start ≤ range.stop ∧ range.stop ≤ bytes text.toList ∧
      (range.isEmpty = true ↔ left.isEmpty = true ∧ left.start < last.stop) ∧
      (left.isEmpty = false → range = left) ∧
      (left.isEmpty = true → left.start < last.stop → range = ⟨span.start, span.start⟩) ∧
      (left.isEmpty = true → last.stop ≤ left.start → range = last) := by
  refine ⟨labelSpan?_eq_none_iff, fun span marked visible => ?_⟩
  have last := isLastVisible_lastCharacter visible
  have bounds := last.bounds
  rw [marked]
  cases left : (span.cutTo (bytes text.toList)).isEmpty with
  | false =>
    have some_byte := (Span.isEmpty_eq_false_iff _).mp left
    exact ⟨_, _, _, labelSpan?_inside visible left, rfl, last, some_byte.le, span.stop_cutTo_le _,
      by simp [left], by simp, by simp [left], by simp [left]⟩
  | true =>
    by_cases seen : (span.cutTo (bytes text.toList)).start < (lastCharacter (trimEnd text.toList)).stop
    · have start := Span.start_cutTo_of_lt (seen.trans_le bounds.2)
      refine ⟨_, _, _, labelSpan?_before visible left seen, rfl, last, le_rfl, ?_, ?_, ?_, ?_, ?_⟩
      · rw [← start]
        exact seen.le.trans bounds.2
      · simp [Span.isEmpty_iff, seen, (Span.isEmpty_iff _).mp left]
      · simp [left]
      · exact fun _ _ => rfl
      · exact fun _ behind => absurd seen (Nat.not_lt.mpr behind)
    · have behind := Nat.not_lt.mp seen
      refine ⟨_, _, _, labelSpan?_behind visible left behind, rfl, last, bounds.1.le, bounds.2,
        ?_, ?_, ?_, ?_⟩
      · simp [Span.isEmpty_iff, seen, bounds.1]
      · simp [left]
      · exact fun _ before => absurd before seen
      · exact fun _ _ => rfl

theorem labelSpan?_of_any_backwards :
    labelSpan? "1 \u00e9\u3000".toList (some ⟨9, 3⟩) = some ⟨2, 4⟩ ∧
    IsLastVisible ⟨2, 4⟩ "1 \u00e9\u3000".toList := by
  have here : labelSpan? "1 \u00e9\u3000".toList (some ⟨9, 3⟩) = some ⟨2, 4⟩ := by decide
  let d : Diagnostic := Fault.diagnostic ⟨.divisionByZero, some ⟨9, 3⟩⟩
  obtain ⟨range, left, last, labeled, rfl, visible, -, -, -, -, -, behind⟩ :=
    (labelSpan?_of_any "1 \u00e9\u3000" d).2 ⟨9, 3⟩ rfl (by decide)
  obtain rfl : range = ⟨2, 4⟩ := Option.some.inj (labeled.symm.trans here)
  exact ⟨here, (behind (by decide) visible.bounds.2) ▸ visible⟩

end Report

end Abacus
