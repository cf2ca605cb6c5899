import Mathlib
import Abacus.Proofs.Expression.Gaps

/-!
Two sources with the same characters, and with gaps at the same places. They are read side by side:
whatever is left of one has as many glyphs as what is left of the other, so the same characters at
the same positions, and a literal in one ends where it does in the other.
-/

namespace Abacus.Expression

open Literal (isNumeric split after)

/-- The same characters at the same positions, adjacent at the same places of literals. -/
inductive Aligned : List Glyph → List Glyph → Prop
  | nil : Aligned [] []
  | cons {g h gs hs} : g.char = h.char → g.position = h.position →
      (∀ g' ∈ gs.head?, ∀ h' ∈ hs.head?, isNumeric g.char = true → isNumeric g'.char = true →
        g.isFollowedBy g' = h.isFollowedBy h') → Aligned gs hs → Aligned (g :: gs) (h :: hs)

namespace Aligned

variable {gs hs : List Glyph}

theorem map_char (h : Aligned gs hs) : gs.map Glyph.char = hs.map Glyph.char := by
  induction h with
  | nil => rfl
  | cons char _ _ _ ih => rw [List.map_cons, List.map_cons, char, ih]

theorem length_eq (h : Aligned gs hs) : gs.length = hs.length := by
  simpa using congrArg List.length h.map_char

theorem suffix (h : Aligned gs hs) {s t : List Glyph} (hs' : s <:+ gs) (ht : t <:+ hs)
    (length : s.length = t.length) : Aligned s t := by
  induction h with
  | nil =>
    rw [List.suffix_nil] at hs' ht
    subst hs' ht
    exact .nil
  | @cons g h gs hs char position adjacent aligned ih =>
    have same := aligned.length_eq
    obtain rfl | hs' := List.suffix_cons_iff.mp hs'
    · obtain rfl | ht := List.suffix_cons_iff.mp ht
      · exact .cons char position adjacent aligned
      · have := ht.length_le
        rw [List.length_cons] at length
        omega
    · obtain rfl | ht := List.suffix_cons_iff.mp ht
      · have := hs'.length_le
        rw [List.length_cons] at length
        omega
      · exact ih hs' ht

theorem after {g h : Glyph} (aligned : Aligned (g :: gs) (h :: hs))
    (numeric : isNumeric g.char = true) :
    (after g gs).1.map Glyph.char = (after h hs).1.map Glyph.char := by
  induction gs generalizing g h hs with
  | nil =>
    cases aligned with
    | cons _ _ _ nothing =>
      cases nothing
      rfl
  | cons g' gs ih =>
    cases aligned with
    | cons _ _ adjacent more =>
      cases more with
      | @cons _ h' _ hs char position adjacent' more =>
        cases numeric' : isNumeric g'.char with
        | false => simp [Literal.after, numeric', ← char]
        | true =>
          have followed := adjacent g' rfl h' rfl numeric numeric'
          have further := ih (.cons char position adjacent' more) numeric'
          rw [Literal.after, Literal.after, ← char, ← followed, numeric']
          cases g.isFollowedBy g' with
          | false => rfl
          | true => simpa [← char] using further

theorem split {s t : List Glyph} (aligned : Aligned s t) :
    (split s).1.map Glyph.char = (split t).1.map Glyph.char := by
  cases aligned with
  | nil => rfl
  | @cons g h gs hs char position adjacent more =>
    cases numeric : isNumeric g.char with
    | false => simp [Literal.split, numeric, ← char]
    | true =>
      have further := Aligned.after (.cons char position adjacent more) numeric
      simpa [Literal.split, numeric, ← char] using further

end Aligned

/-- Sources that differ in their blanks only, and not in which literals these break. -/
structure Twins (src src' : Source) : Prop where
  aligned : Aligned src.glyphs src'.glyphs
  size_eq : src.size = src'.size

/-- As much is left of the one as of the other. -/
structure Abreast (src src' : Source) (s t : List Glyph) : Prop where
  left : s <:+ src.glyphs
  right : t <:+ src'.glyphs
  length_eq : s.length = t.length

namespace Abreast

variable {src src' : Source} {s t s' t' : List Glyph}

theorem aligned (h : Abreast src src' s t) (twins : Twins src src') : Aligned s t :=
  twins.aligned.suffix h.left h.right h.length_eq

theorem suffix (h : Abreast src src' s t) (hs : s' <:+ s) (ht : t' <:+ t)
    (length : s'.length = t'.length) : Abreast src src' s' t' :=
  ⟨hs.trans h.left, ht.trans h.right, length⟩

theorem tail {g h : Glyph} (abreast : Abreast src src' (g :: s) (h :: t)) : Abreast src src' s t :=
  abreast.suffix (List.suffix_cons g s) (List.suffix_cons h t) (Nat.succ.inj abreast.length_eq)

theorem drop (h : Abreast src src' s t) (n : Nat) : Abreast src src' (s.drop n) (t.drop n) :=
  h.suffix (List.drop_suffix n s) (List.drop_suffix n t) (by simp [h.length_eq])

theorem position_eq (h : Abreast src src' s t) (twins : Twins src src') :
    src.position s = src'.position t := by
  cases h.aligned twins with
  | nil => exact twins.size_eq
  | cons _ position _ _ => exact position

theorem head?_eq (h : Abreast src src' s t) (twins : Twins src src') :
    s.head?.map Glyph.char = t.head?.map Glyph.char := by
  rw [← List.head?_map, ← List.head?_map, (h.aligned twins).map_char]

theorem takeWhile_length (h : Abreast src src' s t) (twins : Twins src src') (p : Char → Bool) :
    (s.takeWhile fun g => p g.char).length = (t.takeWhile fun g => p g.char).length := by
  have same := congrArg (fun cs => (cs.takeWhile p).length) (h.aligned twins).map_char
  simpa [List.takeWhile_map, Function.comp_def] using same

theorem dropWhile (h : Abreast src src' s t) (twins : Twins src src') (p : Char → Bool) :
    Abreast src src' (s.dropWhile fun g => p g.char) (t.dropWhile fun g => p g.char) := by
  have same := congrArg (fun cs => (cs.dropWhile p).length) (h.aligned twins).map_char
  refine h.suffix (List.dropWhile_suffix _) (List.dropWhile_suffix _) ?_
  simpa [List.dropWhile_map, Function.comp_def] using same

theorem beginsWith_eq (h : Abreast src src' s t) (twins : Twins src src') (word : List Char) :
    beginsWith word s = beginsWith word t := by
  rw [beginsWith, beginsWith, List.map_take, List.map_take, (h.aligned twins).map_char]

theorem split_rest (h : Abreast src src' s t) (twins : Twins src src') :
    Abreast src src' (split s).2 (split t).2 := by
  refine h.suffix (Literal.split_suffix s) (Literal.split_suffix t) ?_
  have taken := congrArg List.length (h.aligned twins).split
  have left := congrArg List.length (Literal.split_append s)
  have right := congrArg List.length (Literal.split_append t)
  have length := h.length_eq
  simp only [List.length_map] at taken
  simp only [List.length_append] at left right
  omega

theorem before (h : Abreast src src' s t) (twins : Twins src src') : ∃ gs hs,
    src.glyphs = gs ++ s ∧ src'.glyphs = hs ++ t ∧ gs.map Glyph.char = hs.map Glyph.char := by
  obtain ⟨gs, left⟩ := h.left
  obtain ⟨hs, right⟩ := h.right
  refine ⟨gs, hs, left.symm, right.symm, ?_⟩
  have chars := twins.aligned.map_char
  rw [← left, ← right, List.map_append, List.map_append] at chars
  exact List.append_inj_left' chars (by simp [h.length_eq])

theorem between (h : Abreast src src' s t) (twins : Twins src src') (h' : Abreast src src' s' t')
    (left : s' <:+ s) : ∃ gs hs,
      s = gs ++ s' ∧ t = hs ++ t' ∧ gs.map Glyph.char = hs.map Glyph.char := by
  have right : t' <:+ t := by
    refine List.suffix_of_suffix_length_le h'.right h.right ?_
    rw [← h.length_eq, ← h'.length_eq]
    exact left.length_le
  obtain ⟨gs, rfl⟩ := left
  obtain ⟨hs, rfl⟩ := right
  refine ⟨gs, hs, rfl, rfl, ?_⟩
  have chars := (h.aligned twins).map_char
  rw [List.map_append, List.map_append] at chars
  exact List.append_inj_left' chars (by simp [h'.length_eq])

end Abreast

theorem aligned_of_gaps {cs ds : List Char} (gaps : ∀ i, HasGap cs i ↔ HasGap ds i)
    {gs hs s t : List Glyph} (left : (Source.ofChars cs).glyphs = gs ++ s)
    (right : (Source.ofChars ds).glyphs = hs ++ t) (before : gs.map Glyph.char = hs.map Glyph.char)
    (chars : s.map Glyph.char = t.map Glyph.char) : Aligned s t := by
  -- one glyph after the other moves from what is left to what stands before
  induction s generalizing gs hs t with
  | nil =>
    obtain rfl := List.map_eq_nil_iff.mp chars.symm
    exact .nil
  | cons g s ih =>
    obtain ⟨h, t, rfl, char, more⟩ := List.map_eq_cons_iff.mp chars.symm
    have length : gs.length = hs.length := by simpa using congrArg List.length before
    have position : g.position = h.position := by
      have counted := Source.position_eq left
      rw [before, ← Source.position_eq right] at counted
      exact counted
    have left' : (Source.ofChars cs).glyphs = (gs ++ [g]) ++ s := by simp [left]
    have right' : (Source.ofChars ds).glyphs = (hs ++ [h]) ++ t := by simp [right]
    refine .cons char.symm position ?_ (ih left' right' (by simp [before, char]) more.symm)
    intro g' hg' h' hh' numeric numeric'
    obtain ⟨s, rfl⟩ := List.head?_eq_some_iff.mp hg'
    obtain ⟨t, rfl⟩ := List.head?_eq_some_iff.mp hh'
    have char' : h'.char = g'.char := (List.cons.inj more).1
    have apart := isFollowedBy_eq_false_iff left numeric numeric'
    have apart' := isFollowedBy_eq_false_iff right (char ▸ numeric) (char' ▸ numeric')
    rw [← length, ← gaps, ← apart] at apart'
    cases followed : h.isFollowedBy h' with
    | true => simpa [followed] using apart'
    | false => exact apart'.mp followed

theorem twins_of_gaps {cs ds : List Char} (same : Text.stripped cs = Text.stripped ds)
    (gaps : ∀ i, HasGap cs i ↔ HasGap ds i) : Twins (Source.ofChars cs) (Source.ofChars ds) where
  aligned := by
    have chars : (Source.ofChars cs).chars = (Source.ofChars ds).chars := by
      rw [Source.chars_ofChars, Source.chars_ofChars]
      exact same
    exact aligned_of_gaps gaps (List.nil_append _).symm (List.nil_append _).symm rfl chars
  size_eq := congrArg Text.bytes same

end Abacus.Expression
