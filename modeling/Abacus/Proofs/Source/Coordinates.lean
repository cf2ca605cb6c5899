import Mathlib
import Abacus.Proofs.Source.Lookup

/-!
Stripped text and text as typed, byte by byte. The map from positions to offsets keeps the order and
the bytes, and leaves out the bytes of blanks and no others; so what is found at a position, or
between two of them, is found in the text as typed at the places they are mapped to.
-/

namespace Abacus

namespace Text

def utf8 (cs : List Char) : List UInt8 :=
  cs.flatMap String.utf8EncodeChar

theorem length_utf8 (cs : List Char) : (utf8 cs).length = bytes cs := by
  induction cs with
  | nil => rfl
  | cons c cs ih =>
    rw [utf8, List.flatMap_cons, List.length_append, String.length_utf8EncodeChar, bytes_cons, ← ih,
      utf8]

theorem getElem?_utf8 {c : Char} {k : Nat} (h : k < c.utf8Size) (before after : List Char) :
    (utf8 (before ++ c :: after))[bytes before + k]? = (String.utf8EncodeChar c)[k]? := by
  rw [utf8, List.flatMap_append, ← utf8, List.getElem?_append_right (by rw [length_utf8]; omega),
    length_utf8, Nat.add_sub_cancel_left, List.flatMap_cons,
    List.getElem?_append_left (by rwa [String.length_utf8EncodeChar])]

theorem exists_char_at {cs : List Char} {p : Nat} (h : p < bytes cs) : ∃ before c after k,
    cs = before ++ c :: after ∧ k < c.utf8Size ∧ p = bytes before + k := by
  induction cs generalizing p with
  | nil => exact absurd h (Nat.not_lt_zero p)
  | cons c cs ih =>
    by_cases inside : p < c.utf8Size
    · exact ⟨[], c, cs, p, rfl, inside, by simp⟩
    · rw [bytes_cons] at h
      obtain ⟨before, d, after, k, rfl, inside', place⟩ := ih (p := p - c.utf8Size) (by omega)
      refine ⟨c :: before, d, after, k, rfl, inside', ?_⟩
      rw [bytes_cons]
      omega

/-- Of two places in a text, what stands before the earlier begins what stands before the later. -/
theorem append_of_bytes_lt {xs ys xs' ys' : List Char} (h : xs ++ ys = xs' ++ ys')
    (earlier : bytes xs < bytes xs') : ∃ between, between ≠ [] ∧ xs' = xs ++ between ∧
      ys = between ++ ys' := by
  obtain ⟨between, rfl, rfl⟩ | ⟨between, rfl, rfl⟩ := List.append_eq_append_iff.mp h
  · refine ⟨between, ?_, rfl, rfl⟩
    rintro rfl
    simp at earlier
  · rw [bytes_append] at earlier
    omega

@[simp] theorem stripped_stripped (cs : List Char) : stripped (stripped cs) = stripped cs := by
  simp [stripped, List.filter_filter]

end Text

open Text

namespace Source

variable {cs : List Char} {gs rest : List Glyph} {g : Glyph} {p q k : Nat}

theorem exists_split {xs ys : List Char} (h : (ofChars cs).chars = xs ++ ys) :
    ∃ gs hs, (ofChars cs).glyphs = gs ++ hs ∧ gs.map Glyph.char = xs ∧ hs.map Glyph.char = ys ∧
      (ofChars cs).position hs = bytes xs := by
  obtain ⟨gs, hs, place, rfl, rfl⟩ := List.map_eq_append_iff.mp h
  exact ⟨gs, hs, place, rfl, rfl, position_eq place⟩

theorem exists_glyph_at (h : p < (ofChars cs).size) : ∃ gs g rest k,
    (ofChars cs).glyphs = gs ++ g :: rest ∧ k < g.char.utf8Size ∧ p = g.position + k := by
  rw [size_ofChars] at h
  obtain ⟨before, c, after, k, chars, inside, rfl⟩ := exists_char_at h
  obtain ⟨gs, hs, place, -, chars', position⟩ := exists_split chars
  obtain ⟨g, rest, rfl, rfl, -⟩ := List.map_eq_cons_iff.mp chars'
  exact ⟨gs, g, rest, k, place, inside, by rw [← position, position_cons]⟩

theorem position_add_lt_size (h : (ofChars cs).glyphs = gs ++ g :: rest)
    (inside : k < g.char.utf8Size) : g.position + k < (ofChars cs).size := by
  have all : (ofChars cs).glyphs = (gs ++ g :: rest) ++ [] := by rw [h, List.append_nil]
  have := position_ge_of_mem all (g := g) (by simp)
  rw [position_nil] at this
  omega

theorem offsetAt_add (h : (ofChars cs).glyphs = gs ++ g :: rest) (inside : k < g.char.utf8Size) :
    (ofChars cs).offsetAt (g.position + k) = g.offset + k := by
  have passed : ∀ g' ∈ gs, ¬ g'.covers (g.position + k) = true := by
    intro g' member
    have := position_ge_of_mem h member
    rw [position_cons] at this
    simp [Glyph.covers]
    omega
  rw [offsetAt, h, List.find?_append, List.find?_eq_none.mpr passed]
  simp [Glyph.covers, inside]

theorem not_covers_of_size_le (h : (ofChars cs).size ≤ p) :
    ∀ g ∈ (ofChars cs).glyphs, g.position + g.char.utf8Size ≤ p := by
  intro g member
  have := position_ge_of_mem (List.append_nil _).symm member
  rw [position_nil] at this
  omega

theorem offsetAt_of_size_le (h : (ofChars cs).size ≤ p) :
    (ofChars cs).offsetAt p = (ofChars cs).extent := by
  rw [offsetAt, List.find?_eq_none.mpr]
  intro g member
  have := not_covers_of_size_le h g member
  simp [Glyph.covers]
  omega

theorem charAt?_of_size_le (h : (ofChars cs).size ≤ p) : (ofChars cs).charAt? p = none := by
  rw [charAt?, List.find?_eq_none.mpr]
  · rfl
  · intro g member
    have := not_covers_of_size_le h g member
    have := Char.utf8Size_pos g.char
    simp
    omega

theorem spanAt_of_size_le (h : (ofChars cs).size ≤ p) :
    (ofChars cs).spanAt p = ⟨bytes cs, bytes cs⟩ := by
  rw [spanAt, offsetAt_of_size_le h, charAt?_of_size_le h]
  rfl

theorem offsetAt_lt_succ (h : p < (ofChars cs).size) :
    (ofChars cs).offsetAt p < (ofChars cs).offsetAt (p + 1) := by
  obtain ⟨gs, g, rest, k, place, inside, rfl⟩ := exists_glyph_at h
  rw [offsetAt_add place inside]
  by_cases more : k + 1 < g.char.utf8Size
  · rw [Nat.add_assoc, offsetAt_add place more]
    omega
  · have further : g.position + k + 1 = (ofChars cs).position rest := by
      rw [position_advance place]
      omega
    obtain ⟨before, blanks, after, -, -, -, -, start, -⟩ := exists_blanks place
    have place' : (ofChars cs).glyphs = (gs ++ [g]) ++ rest := by simpa using place
    rw [further, offsetAt_position place', start]
    omega

theorem offsetAt_add_le (h : p + k ≤ (ofChars cs).size) :
    (ofChars cs).offsetAt p + k ≤ (ofChars cs).offsetAt (p + k) := by
  induction k with
  | zero => rfl
  | succ k ih =>
    have before := ih (by omega)
    have inside : p + k < (ofChars cs).size := by omega
    have step := offsetAt_lt_succ inside
    rw [← Nat.add_assoc, ← Nat.add_assoc]
    omega

theorem offsetAt_lt (earlier : p < q) (inside : q ≤ (ofChars cs).size) :
    (ofChars cs).offsetAt p < (ofChars cs).offsetAt q := by
  have between : p + (q - p) = q := Nat.add_sub_cancel' earlier.le
  have step := offsetAt_add_le (between.le.trans inside)
  rw [between] at step
  omega

theorem exists_position {before after : List Char} {c : Char} (text : cs = before ++ c :: after)
    (solid : isBlank c = false) (inside : k < c.utf8Size) :
    ∃ p < (ofChars cs).size, (ofChars cs).offsetAt p = bytes before + k := by
  have place : (ofChars cs).glyphs = Glyph.strip 0 0 before ++
      ⟨c, bytes (stripped before), bytes before⟩ ::
        Glyph.strip (bytes (stripped before) + c.utf8Size) (bytes before + c.utf8Size) after := by
    rw [text, ofChars, Glyph.strip_append, Glyph.strip_cons solid]
    simp
  exact ⟨_, position_add_lt_size place inside, offsetAt_add place inside⟩

theorem isAdjacent_iff (positive : 0 < p) (h : p < (ofChars cs).size) :
    (ofChars cs).isAdjacent p = true ↔ ∀ before c after, cs = before ++ c :: after →
      isBlank c = true →
      ¬ ((ofChars cs).offsetAt (p - 1) < bytes before ∧ bytes before < (ofChars cs).offsetAt p) := by
  have side : (ofChars cs).isAdjacent p = true ↔
      (ofChars cs).offsetAt p = (ofChars cs).offsetAt (p - 1) + 1 := by
    simp [isAdjacent, positive]
  rw [side]
  constructor
  · intro next before c after _ _
    omega
  · intro nothing
    have before : p - 1 < (ofChars cs).size := Nat.lt_of_le_of_lt (Nat.sub_le p 1) h
    obtain ⟨gs, g, rest, k, place, inside, last⟩ := exists_glyph_at before
    have here : (ofChars cs).offsetAt (p - 1) = g.offset + k := by
      rw [last, offsetAt_add place inside]
    -- the next byte is of the same character, or it is the first of the one after the blanks
    by_cases more : k + 1 < g.char.utf8Size
    · have next : p = g.position + (k + 1) := by omega
      rw [here, next, offsetAt_add place more, Nat.add_assoc]
    · have next : p = (ofChars cs).position rest := by
        rw [position_advance place]
        omega
      obtain ⟨before, blanks, after, text, -, blank, offset, start, -⟩ := exists_blanks place
      have place' : (ofChars cs).glyphs = (gs ++ [g]) ++ rest := by simpa using place
      have there : (ofChars cs).offsetAt p = g.offset + g.char.utf8Size + bytes blanks := by
        rw [next, offsetAt_position place', start]
      cases blanks with
      | nil =>
        rw [there, here, bytes_nil]
        omega
      | cons b blanks =>
        have isBlank_b : isBlank b = true := by
          by_contra solid
          rw [stripped_cons (by simpa using solid)] at blank
          cases blank
        have between := nothing (before ++ [g.char]) b (blanks ++ after) (by simp [text]) isBlank_b
        rw [there, here, bytes_append, bytes_cons, bytes_cons, bytes_nil] at between
        have := Char.utf8Size_pos b
        omega

theorem spanAt_cuts (boundary : IsBoundary (ofChars cs).chars p) (h : p < (ofChars cs).size) :
    ∃ front c back, (ofChars cs).chars = front ++ c :: back ∧ p = bytes front ∧
      (ofChars cs).charAt? p = some c ∧
      ∃ before after, ((ofChars cs).spanAt p).Cuts cs before [c] after := by
  obtain ⟨front, back, chars, rfl⟩ := boundary
  obtain ⟨gs, hs, place, -, chars', position⟩ := exists_split chars
  cases hs with
  | nil =>
    rw [position_nil] at position
    omega
  | cons g rest =>
    rw [List.map_cons] at chars'
    obtain ⟨before, after, cuts, -⟩ := cuts_span place
    refine ⟨front, g.char, rest.map Glyph.char, by rw [chars, chars'], rfl, ?_, before, after, ?_⟩
    · rw [← position, charAt?_position place]
      rfl
    · rw [← position, spanAt_position place]
      exact cuts

theorem spanBetween_glyphs {hs : List Glyph}
    (h : (ofChars cs).glyphs = gs ++ (hs ++ g :: rest)) :
    (ofChars cs).spanBetween ((ofChars cs).position (hs ++ g :: rest)) ((ofChars cs).position rest) =
      ⟨((ofChars cs).span (hs ++ g :: rest)).start, g.offset + g.char.utf8Size⟩ := by
  have place : (ofChars cs).glyphs = (gs ++ hs) ++ g :: rest := by simpa using h
  have positive := Char.utf8Size_pos g.char
  have before : (ofChars cs).position (hs ++ g :: rest) ≤ g.position := by
    rw [position_eq h, ← position_cons (ofChars cs) g rest, position_eq place, List.map_append,
      bytes_append]
    exact Nat.le_add_right _ _
  have advance := position_advance place
  have last : (ofChars cs).position rest - 1 = g.position + (g.char.utf8Size - 1) := by omega
  rw [spanBetween, if_neg (by omega), offsetAt_position h, last, offsetAt_add place (by omega)]
  congr 1
  omega

theorem spanBetween_cuts (first : IsBoundary (ofChars cs).chars p)
    (last : IsBoundary (ofChars cs).chars q) (h : p < q) :
    ∃ before marked after, ((ofChars cs).spanBetween p q).Cuts cs before marked after ∧
      HasVisibleEnds marked ∧ slice? p q (ofChars cs).chars = some (stripped marked) := by
  obtain ⟨xs, ys, chars, rfl⟩ := first
  obtain ⟨xs', ys', chars', rfl⟩ := last
  obtain ⟨between, some_char, rfl, rfl⟩ := append_of_bytes_lt (chars.symm.trans chars') h
  obtain ⟨gs, hs, place, rfl, more, position⟩ := exists_split chars
  obtain ⟨run, rest, rfl, rfl, -⟩ := List.map_eq_append_iff.mp more
  obtain ⟨init, g, rfl⟩ := List.eq_nil_or_concat' run |>.resolve_left
    fun nothing => some_char (by rw [nothing, List.map_nil])
  have place' : (ofChars cs).glyphs = gs ++ (init ++ g :: rest) := by simpa using place
  have place'' : (ofChars cs).glyphs = (gs ++ (init ++ [g])) ++ rest := by simpa using place
  have first_eq := position_eq place'
  have last_eq := position_eq place''
  have member : g ∈ (ofChars cs).glyphs := by simp [place']
  have solid := isBlank_of_mem_glyphs member
  obtain ⟨before, inside, after, cuts, ends, -, stripped_inside, -⟩ := cuts_glyphs place'
  rw [← List.map_append, ← first_eq, ← last_eq, spanBetween_glyphs place']
  refine ⟨before, inside ++ [g.char], after, cuts, ends, ?_⟩
  have run := slice?_position place
  rw [List.append_assoc, List.singleton_append] at run
  rw [run, stripped_append, stripped_inside, stripped_cons solid, stripped_nil, List.map_append,
    List.map_singleton]

theorem offsetAt_stripped (h : p ≤ bytes (stripped cs)) :
    (ofChars (stripped cs)).offsetAt p = p := by
  have size : (ofChars (stripped cs)).size = bytes (stripped cs) := by
    rw [size_ofChars, chars_ofChars]
    exact congrArg bytes (stripped_stripped cs)
  have last : (ofChars (stripped cs)).offsetAt (bytes (stripped cs)) = bytes (stripped cs) :=
    offsetAt_of_size_le size.le
  have first : 0 + p ≤ (ofChars (stripped cs)).size := by omega
  have rest : p + (bytes (stripped cs) - p) ≤ (ofChars (stripped cs)).size := by omega
  have before := offsetAt_add_le first
  have behind := offsetAt_add_le rest
  rw [Nat.add_sub_cancel' h, last] at behind
  rw [Nat.zero_add] at before
  omega

/-- The source has the text without its blanks, and for each of its bytes the place it had. -/
structure Represents (src : Source) (cs : List Char) : Prop where
  chars_eq : src.chars = cs.filter fun c => !isBlank c
  size_eq : src.size = (utf8 src.chars).length
  offsetAt_lt : ∀ p q, p < q → q ≤ src.size → src.offsetAt p < src.offsetAt q
  byte_eq : ∀ p < src.size, ∃ b,
    (utf8 src.chars)[p]? = some b ∧ (utf8 cs)[src.offsetAt p]? = some b
  blank_of_missed : ∀ q < (utf8 cs).length, (∀ p < src.size, src.offsetAt p ≠ q) →
    ∃ before c after, cs = before ++ c :: after ∧ isBlank c = true ∧
      bytes before ≤ q ∧ q < bytes before + c.utf8Size
  isAdjacent : ∀ p, 0 < p → p < src.size → (src.isAdjacent p = true ↔
    ∀ before c after, cs = before ++ c :: after → isBlank c = true →
      ¬ (src.offsetAt (p - 1) < bytes before ∧ bytes before < src.offsetAt p))
  spanAt : ∀ p, IsBoundary src.chars p → p < src.size → ∃ front c back,
    src.chars = front ++ c :: back ∧ p = bytes front ∧ src.charAt? p = some c ∧
      ∃ before after, (src.spanAt p).Cuts cs before [c] after
  spanBetween : ∀ p q, IsBoundary src.chars p → IsBoundary src.chars q → p < q →
    ∃ before marked after, (src.spanBetween p q).Cuts cs before marked after ∧
      HasVisibleEnds marked ∧ slice? p q src.chars = some (stripped marked)
  spanAt_end : ∀ p, src.size ≤ p → src.spanAt p = ⟨(utf8 cs).length, (utf8 cs).length⟩
  again : (ofChars src.chars).chars = src.chars ∧
    ∀ p ≤ src.size, (ofChars src.chars).offsetAt p = p

theorem exists_byte (h : p < (ofChars cs).size) : ∃ b,
    (utf8 (ofChars cs).chars)[p]? = some b ∧ (utf8 cs)[(ofChars cs).offsetAt p]? = some b := by
  obtain ⟨gs, g, rest, k, place, inside, rfl⟩ := exists_glyph_at h
  obtain ⟨before, blanks, after, text, -, -, offset, -⟩ := exists_blanks place
  have position : g.position = bytes (gs.map Glyph.char) := position_eq place
  obtain ⟨b, byte⟩ : ∃ b, (String.utf8EncodeChar g.char)[k]? = some b :=
    ⟨_, List.getElem?_eq_getElem (by rwa [String.length_utf8EncodeChar])⟩
  refine ⟨b, ?_, ?_⟩
  · rw [chars_eq_append place, List.map_cons, position, getElem?_utf8 inside, byte]
  · rw [offsetAt_add place inside, offset]
    conv_lhs => rw [text]
    rw [getElem?_utf8 inside, byte]

theorem ofText_represents (text : String) : (ofText text).Represents text.toList where
  chars_eq := chars_ofChars text.toList
  size_eq := by rw [length_utf8, ofText, size_ofChars]
  offsetAt_lt p q earlier inside := offsetAt_lt earlier inside
  byte_eq p inside := exists_byte inside
  blank_of_missed q inside missed := by
    rw [length_utf8] at inside
    obtain ⟨before, c, after, k, text_eq, within, rfl⟩ := exists_char_at inside
    refine ⟨before, c, after, text_eq, ?_, by omega, by omega⟩
    by_contra solid
    obtain ⟨p, there, reached⟩ := exists_position text_eq (by simpa using solid) within
    exact missed p there reached
  isAdjacent p positive inside := isAdjacent_iff positive inside
  spanAt p boundary inside := spanAt_cuts boundary inside
  spanBetween p q first last earlier := spanBetween_cuts first last earlier
  spanAt_end p outside := by
    rw [length_utf8]
    exact spanAt_of_size_le outside
  again := by
    have chars : (ofText text).chars = stripped text.toList := chars_ofChars text.toList
    rw [chars, chars_ofChars]
    exact ⟨stripped_stripped text.toList, fun p inside => offsetAt_stripped inside⟩

example : (ofText "1\u3000é").spanAt 1 = ⟨4, 6⟩ := by decide

end Source

end Abacus
