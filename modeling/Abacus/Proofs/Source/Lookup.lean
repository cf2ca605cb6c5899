import Mathlib
import Abacus.Proofs.Source

/-!
Lookups by position. At the place of what is left to read, what is found under its position is what
is left: the character, the span, the offset, and the slice of the stripped text.
-/

namespace Abacus

namespace Text

def splitAt? : Nat → List Char → Option (List Char × List Char)
  | 0, cs => some ([], cs)
  | _ + 1, [] => none
  | p + 1, c :: cs =>
    if c.utf8Size ≤ p + 1 then
      (splitAt? (p + 1 - c.utf8Size) cs).map fun (before, after) => (c :: before, after)
    else
      none

theorem splitAt?_bytes (before after : List Char) :
    splitAt? (bytes before) (before ++ after) = some (before, after) := by
  induction before with
  | nil => rw [bytes_nil, splitAt?, List.nil_append]
  | cons c before ih =>
    have positive := Char.utf8Size_pos c
    obtain ⟨p, hp⟩ : ∃ p, bytes (c :: before) = p + 1 :=
      Nat.exists_eq_add_of_le' (by rw [bytes_cons]; omega)
    have inside : p + 1 - c.utf8Size = bytes before := by
      rw [← hp, bytes_cons, Nat.add_sub_cancel_left]
    have fits : c.utf8Size ≤ p + 1 := by
      rw [← hp, bytes_cons]
      omega
    rw [hp, List.cons_append, splitAt?, if_pos fits, inside, ih]
    rfl

theorem splitAt?_eq_some {p : Nat} {cs before after : List Char}
    (h : splitAt? p cs = some (before, after)) : cs = before ++ after ∧ p = bytes before := by
  induction cs generalizing p before with
  | nil =>
    cases p with
    | zero =>
      obtain ⟨rfl, rfl⟩ := by simpa [splitAt?] using h
      exact ⟨rfl, rfl⟩
    | succ p => simp [splitAt?] at h
  | cons c cs ih =>
    cases p with
    | zero =>
      obtain ⟨rfl, rfl⟩ := by simpa [splitAt?] using h
      exact ⟨rfl, rfl⟩
    | succ p =>
      rw [splitAt?] at h
      split_ifs at h with fits
      obtain ⟨⟨more, after⟩, found, same⟩ := Option.map_eq_some_iff.mp h
      obtain ⟨rfl, rfl⟩ := Prod.mk.inj same
      obtain ⟨rfl, size⟩ := ih found
      refine ⟨rfl, ?_⟩
      rw [bytes_cons]
      omega

def slice? (first last : Nat) (cs : List Char) : Option (List Char) := do
  let (_, tail) ← splitAt? first cs
  let (slice, _) ← splitAt? (last - first) tail
  return slice

theorem slice?_bytes (before slice after : List Char) :
    slice? (bytes before) (bytes before + bytes slice) (before ++ (slice ++ after)) =
      some slice := by
  rw [slice?, splitAt?_bytes]
  simp [splitAt?_bytes]

/-- A place between two characters, or at an end. -/
def IsBoundary (cs : List Char) (p : Nat) : Prop :=
  ∃ before after, cs = before ++ after ∧ p = bytes before

theorem IsBoundary.le {cs : List Char} {p : Nat} (h : IsBoundary cs p) : p ≤ bytes cs := by
  obtain ⟨before, after, rfl, rfl⟩ := h
  rw [bytes_append]
  exact Nat.le_add_right _ _

end Text

open Text

namespace Source

variable {cs : List Char} {gs rest s : List Glyph} {g : Glyph}

theorem size_ofChars (cs : List Char) : (ofChars cs).size = bytes (ofChars cs).chars := by
  rw [chars_ofChars]
  rfl

theorem position_add_bytes {run : List Glyph} (h : (ofChars cs).glyphs = gs ++ (run ++ rest)) :
    (ofChars cs).position (run ++ rest) + bytes (run.map Glyph.char) =
      (ofChars cs).position rest := by
  have here := position_eq h
  rw [← List.append_assoc] at h
  rw [position_eq h, here, List.map_append, bytes_append]

theorem position_advance (h : (ofChars cs).glyphs = gs ++ g :: rest) :
    (ofChars cs).position rest = g.position + g.char.utf8Size := by
  have run : (ofChars cs).glyphs = gs ++ ([g] ++ rest) := h
  rw [← position_add_bytes run]
  simp

theorem eq_of_position_eq {t : List Glyph} (hs : s <:+ (ofChars cs).glyphs) (ht : t <:+ s)
    (same : (ofChars cs).position t = (ofChars cs).position s) : t = s := by
  obtain ⟨before, place⟩ := hs
  obtain ⟨between, rfl⟩ := ht
  have step := position_add_bytes place.symm
  have short := length_le_bytes (between.map Glyph.char)
  rw [List.length_map] at short
  have nothing : between = [] := List.length_eq_zero_iff.mp (by omega)
  rw [nothing, List.nil_append]

theorem position_ge_of_mem (h : (ofChars cs).glyphs = gs ++ rest) (member : g ∈ gs) :
    g.position + g.char.utf8Size ≤ (ofChars cs).position rest := by
  obtain ⟨before, after, rfl⟩ := List.append_of_mem member
  rw [position_eq h]
  rw [List.append_assoc] at h
  have here : g.position = bytes (before.map Glyph.char) := position_eq h
  simp only [List.map_append, List.map_cons, bytes_append, bytes_cons]
  omega

theorem charAt?_position (h : (ofChars cs).glyphs = gs ++ s) :
    (ofChars cs).charAt? ((ofChars cs).position s) = s.head?.map Glyph.char := by
  have passed : ∀ g ∈ gs, (g.position == (ofChars cs).position s) = false := by
    intro g member
    have := position_ge_of_mem h member
    have := Char.utf8Size_pos g.char
    simp
    omega
  rw [charAt?, h, List.find?_append, List.find?_eq_none.mpr (by simpa using passed)]
  cases s with
  | nil => rfl
  | cons g rest => simp

theorem offsetAt_position (h : (ofChars cs).glyphs = gs ++ s) :
    (ofChars cs).offsetAt ((ofChars cs).position s) = ((ofChars cs).span s).start := by
  have passed : ∀ g ∈ gs, ¬ g.covers ((ofChars cs).position s) = true := by
    intro g member
    have := position_ge_of_mem h member
    simp [Glyph.covers]
    omega
  rw [offsetAt, h, List.find?_append, List.find?_eq_none.mpr passed]
  cases s with
  | nil => simp
  | cons g rest => simp [Glyph.covers, Glyph.span, Char.utf8Size_pos]

theorem spanAt_position (h : (ofChars cs).glyphs = gs ++ s) :
    (ofChars cs).spanAt ((ofChars cs).position s) = (ofChars cs).span s := by
  rw [spanAt, offsetAt_position h, charAt?_position h]
  cases s with
  | nil => rfl
  | cons g rest => rfl

theorem offsetAt_last (h : (ofChars cs).glyphs = gs ++ g :: rest) (size : g.char.utf8Size = 1) :
    (ofChars cs).offsetAt ((ofChars cs).position rest - 1) = g.offset := by
  rw [position_advance h, size, Nat.add_sub_cancel]
  exact offsetAt_position h

theorem isAdjacent_position {next : Glyph} (h : (ofChars cs).glyphs = gs ++ g :: next :: rest)
    (size : g.char.utf8Size = 1) :
    (ofChars cs).isAdjacent ((ofChars cs).position (next :: rest)) = g.isFollowedBy next := by
  have further := position_advance h
  have h' : (ofChars cs).glyphs = (gs ++ [g]) ++ next :: rest := by simpa using h
  rw [isAdjacent, offsetAt_last h size, offsetAt_position h', further]
  simp [Glyph.isFollowedBy, Glyph.span, size]

theorem spanBetween_position {hs : List Glyph} {last : Glyph}
    (h : (ofChars cs).glyphs = gs ++ (hs ++ last :: rest)) (size : last.char.utf8Size = 1) :
    (ofChars cs).spanBetween ((ofChars cs).position (hs ++ last :: rest))
        ((ofChars cs).position rest) =
      ⟨((ofChars cs).span (hs ++ last :: rest)).start, last.offset + 1⟩ := by
  have h' : (ofChars cs).glyphs = (gs ++ hs) ++ last :: rest := by simpa using h
  have further : (ofChars cs).position (hs ++ last :: rest) < (ofChars cs).position rest := by
    rw [position_advance h', size, position_eq h]
    have here : last.position = bytes ((gs ++ hs).map Glyph.char) := position_eq h'
    rw [here, List.map_append, bytes_append]
    omega
  rw [spanBetween, if_neg (by omega), offsetAt_position h, offsetAt_last h' size]

theorem chars_eq_append (h : (ofChars cs).glyphs = gs ++ s) :
    (ofChars cs).chars = gs.map Glyph.char ++ s.map Glyph.char := by
  rw [chars, h, List.map_append]

theorem isBoundary_position (h : (ofChars cs).glyphs = gs ++ s) :
    IsBoundary (ofChars cs).chars ((ofChars cs).position s) :=
  ⟨_, _, chars_eq_append h, position_eq h⟩

theorem splitAt?_position (h : (ofChars cs).glyphs = gs ++ s) :
    splitAt? ((ofChars cs).position s) (ofChars cs).chars =
      some (gs.map Glyph.char, s.map Glyph.char) := by
  rw [chars_eq_append h, position_eq h, splitAt?_bytes]

theorem slice?_position {run : List Glyph} (h : (ofChars cs).glyphs = gs ++ (run ++ rest)) :
    slice? ((ofChars cs).position (run ++ rest)) ((ofChars cs).position rest) (ofChars cs).chars =
      some (run.map Glyph.char) := by
  have h' : (ofChars cs).glyphs = (gs ++ run) ++ rest := by simpa using h
  rw [chars_eq_append h, position_eq h, position_eq h', List.map_append, List.map_append,
    bytes_append, slice?_bytes]

theorem glyphs_eq_nil_iff_size (cs : List Char) : (ofChars cs).glyphs = [] ↔ (ofChars cs).size = 0 := by
  have short := length_le_bytes (ofChars cs).chars
  rw [size_ofChars]
  constructor
  · intro nothing
    simp [chars, nothing]
  · intro nothing
    rw [nothing, Nat.le_zero, chars, List.length_map] at short
    exact List.length_eq_zero_iff.mp short

end Source

end Abacus
