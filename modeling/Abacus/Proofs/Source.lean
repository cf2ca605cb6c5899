import Mathlib
import Abacus.Source

/-!
The two ways to count. Splitting the glyphs of a source splits its text, with the blanks before a
glyph on the left of it; from the split both places of a glyph are read off as sizes, one of the
text and one of what is left of the text without blanks.
-/

namespace Abacus

namespace Text

def stripped (cs : List Char) : List Char :=
  cs.filter fun c => !isBlank c

@[simp] theorem stripped_nil : stripped [] = [] := rfl

theorem stripped_cons_blank {c : Char} (h : isBlank c = true) (cs : List Char) :
    stripped (c :: cs) = stripped cs := by
  simp [stripped, h]

theorem stripped_cons {c : Char} (h : isBlank c = false) (cs : List Char) :
    stripped (c :: cs) = c :: stripped cs := by
  simp [stripped, h]

@[simp] theorem stripped_append (cs ds : List Char) :
    stripped (cs ++ ds) = stripped cs ++ stripped ds :=
  List.filter_append ..

theorem count_stripped {c : Char} (h : isBlank c = false) (cs : List Char) :
    (stripped cs).count c = cs.count c :=
  List.count_filter (by simp [h])

theorem allBlank_iff {cs : List Char} : allBlank cs = true ↔ stripped cs = [] := by
  simp [allBlank, stripped]

theorem length_le_bytes (cs : List Char) : cs.length ≤ bytes cs := by
  induction cs with
  | nil => simp
  | cons c cs ih =>
    have := Char.utf8Size_pos c
    simp only [List.length_cons, bytes_cons]
    omega

theorem bytes_stripped_le (cs : List Char) : bytes (stripped cs) ≤ bytes cs := by
  induction cs with
  | nil => simp
  | cons c cs ih =>
    cases blank : isBlank c with
    | true =>
      rw [stripped_cons_blank blank, bytes_cons]
      omega
    | false =>
      rw [stripped_cons blank, bytes_cons, bytes_cons]
      omega

/-- There is something to see in it, and a blank neither before nor after that. -/
structure HasVisibleEnds (cs : List Char) : Prop where
  head : ∃ c ∈ cs.head?, isBlank c = false
  last : ∃ c ∈ cs.getLast?, isBlank c = false

theorem stripped_eq_self {cs : List Char} (h : bytes cs ≤ bytes (stripped cs)) :
    stripped cs = cs := by
  induction cs with
  | nil => rfl
  | cons c cs ih =>
    cases blank : isBlank c with
    | true =>
      have := Char.utf8Size_pos c
      have := bytes_stripped_le cs
      rw [stripped_cons_blank blank, bytes_cons] at h
      omega
    | false =>
      rw [stripped_cons blank, bytes_cons, bytes_cons] at h
      rw [stripped_cons blank, ih (by omega)]

end Text

open Text

/-- The span is that of the middle one of three pieces. -/
structure Span.Cuts (span : Span) (cs before marked after : List Char) : Prop where
  text_eq : cs = before ++ (marked ++ after)
  start_eq : span.start = bytes before
  stop_eq : span.stop = bytes before + bytes marked

namespace Glyph

theorem strip_blank {c : Char} (h : isBlank c = true) (position offset : Nat) (cs : List Char) :
    strip position offset (c :: cs) = strip position (offset + c.utf8Size) cs := by
  rw [strip, if_pos h]

theorem strip_cons {c : Char} (h : isBlank c = false) (position offset : Nat) (cs : List Char) :
    strip position offset (c :: cs) =
      ⟨c, position, offset⟩ :: strip (position + c.utf8Size) (offset + c.utf8Size) cs := by
  rw [strip, if_neg (by simp [h])]

theorem strip_eq_append {position offset : Nat} {cs : List Char} {gs hs : List Glyph}
    (h : strip position offset cs = gs ++ hs) : ∃ before after, cs = before ++ after ∧
      stripped before = gs.map char ∧ (∀ c ∈ after.head?, isBlank c = false) ∧
      strip (position + bytes (stripped before)) (offset + bytes before) after = hs := by
  induction cs generalizing position offset gs with
  | nil =>
    obtain ⟨rfl, rfl⟩ := List.nil_eq_append_iff.mp h
    exact ⟨[], [], rfl, rfl, by simp, rfl⟩
  | cons c cs ih =>
    cases blank : isBlank c with
    | true =>
      rw [strip_blank blank] at h
      obtain ⟨before, after, rfl, chars, starts, rest⟩ := ih h
      refine ⟨c :: before, after, rfl, ?_, starts, ?_⟩
      · rw [stripped_cons_blank blank, chars]
      · rw [stripped_cons_blank blank, bytes_cons, ← Nat.add_assoc, rest]
    | false =>
      cases gs with
      | nil => exact ⟨[], c :: cs, rfl, rfl, by simp [blank], h⟩
      | cons g gs =>
        rw [strip_cons blank, List.cons_append, List.cons.injEq] at h
        obtain ⟨rfl, h⟩ := h
        obtain ⟨before, after, rfl, chars, starts, rest⟩ := ih h
        refine ⟨c :: before, after, rfl, ?_, starts, ?_⟩
        · rw [stripped_cons blank, chars, List.map_cons]
        · rw [stripped_cons blank, bytes_cons, bytes_cons, ← Nat.add_assoc, ← Nat.add_assoc, rest]

theorem strip_append (position offset : Nat) (cs ds : List Char) :
    strip position offset (cs ++ ds) = strip position offset cs ++
      strip (position + bytes (stripped cs)) (offset + bytes cs) ds := by
  induction cs generalizing position offset with
  | nil => simp [strip]
  | cons c cs ih =>
    cases blank : isBlank c with
    | true =>
      rw [List.cons_append, strip_blank blank, strip_blank blank, ih, stripped_cons_blank blank,
        bytes_cons, Nat.add_assoc]
    | false =>
      rw [List.cons_append, strip_cons blank, strip_cons blank, ih, stripped_cons blank, bytes_cons,
        bytes_cons, Nat.add_assoc, Nat.add_assoc, List.cons_append]

theorem length_strip (position offset : Nat) (cs : List Char) :
    (strip position offset cs).length = (stripped cs).length := by
  rw [← List.length_map Glyph.char, strip_chars]
  rfl

theorem strip_blanks {blanks : List Char} (h : stripped blanks = []) (position offset : Nat)
    (cs : List Char) :
    strip position offset (blanks ++ cs) = strip position (offset + bytes blanks) cs := by
  have nothing : strip position offset blanks = [] := by
    rw [← List.length_eq_zero_iff, length_strip, h, List.length_nil]
  rw [strip_append, nothing, h, List.nil_append, bytes_nil, Nat.add_zero]

theorem strip_eq_cons {position offset : Nat} {cs : List Char} {g : Glyph} {rest : List Glyph}
    (starts : ∀ c ∈ cs.head?, isBlank c = false) (h : strip position offset cs = g :: rest) :
    ∃ after, cs = g.char :: after ∧ g.position = position ∧ g.offset = offset ∧
      strip (position + g.char.utf8Size) (offset + g.char.utf8Size) after = rest := by
  cases cs with
  | nil => simp [strip] at h
  | cons c after =>
    rw [strip_cons (starts c rfl), List.cons.injEq] at h
    obtain ⟨rfl, h⟩ := h
    exact ⟨after, rfl, rfl, rfl, h⟩

theorem strip_eq_concat {position offset : Nat} {cs : List Char} {gs rest : List Glyph}
    {last : Glyph} (starts : ∀ c ∈ cs.head?, isBlank c = false)
    (h : strip position offset cs = gs ++ last :: rest) : ∃ inside after,
      cs = inside ++ last.char :: after ∧ stripped inside = gs.map char ∧
      HasVisibleEnds (inside ++ [last.char]) ∧
      (∀ g ∈ (gs ++ [last]).head?, g.position = position ∧ g.offset = offset) ∧
      last.offset = offset + bytes inside ∧
      strip (position + bytes (stripped inside) + last.char.utf8Size)
        (last.offset + last.char.utf8Size) after = rest := by
  have solid : isBlank last.char = false := by
    have member : last.char ∈ stripped cs := by
      rw [stripped, ← strip_chars position offset, h]
      simp
    simpa using (List.mem_filter.mp member).2
  have first : ∀ g ∈ (gs ++ [last]).head?, g.position = position ∧ g.offset = offset := by
    intro g head
    obtain ⟨more, parts⟩ := List.head?_eq_some_iff.mp head
    have whole : strip position offset cs = g :: (more ++ rest) := by
      rw [h, ← List.cons_append, ← parts, List.append_assoc, List.singleton_append]
    obtain ⟨-, -, counted, place, -⟩ := strip_eq_cons starts whole
    exact ⟨counted, place⟩
  obtain ⟨inside, after, rfl, chars, starts', tail⟩ := strip_eq_append h
  obtain ⟨after, rfl, -, place, tail⟩ := strip_eq_cons starts' tail
  refine ⟨inside, after, rfl, chars, ⟨?_, last.char, by simp, solid⟩, first, place, place ▸ tail⟩
  cases inside with
  | nil => exact ⟨last.char, rfl, solid⟩
  | cons c inside => exact ⟨c, rfl, starts c rfl⟩

theorem strip_eq_nil {position offset : Nat} {cs : List Char}
    (starts : ∀ c ∈ cs.head?, isBlank c = false) (h : strip position offset cs = []) : cs = [] := by
  cases cs with
  | nil => rfl
  | cons c after => simp [strip_cons (starts c rfl)] at h

end Glyph

namespace Source

@[simp] theorem span_nil (src : Source) : src.span [] = ⟨src.extent, src.extent⟩ := rfl

@[simp] theorem span_cons (src : Source) (g : Glyph) (s : List Glyph) :
    src.span (g :: s) = g.span :=
  rfl

@[simp] theorem position_nil (src : Source) : src.position [] = src.size := rfl

@[simp] theorem position_cons (src : Source) (g : Glyph) (s : List Glyph) :
    src.position (g :: s) = g.position := rfl

variable {cs : List Char} {gs hs : List Glyph}

theorem isBlank_of_mem_glyphs {g : Glyph} (h : g ∈ (ofChars cs).glyphs) :
    isBlank g.char = false := by
  have char : g.char ∈ (ofChars cs).chars := List.mem_map_of_mem h
  rw [chars_ofChars] at char
  simpa using (List.mem_filter.mp char).2

theorem glyphs_eq_nil_iff : (ofChars cs).glyphs = [] ↔ stripped cs = [] := by
  rw [← List.map_eq_nil_iff (f := Glyph.char)]
  exact Iff.of_eq (congrArg (· = []) (chars_ofChars cs))

/-- Where the glyphs are split, the text is cut at the next character, or at its end. -/
theorem cuts_span (h : (ofChars cs).glyphs = gs ++ hs) : ∃ before after,
    ((ofChars cs).span hs).Cuts cs before (hs.head?.map Glyph.char).toList after ∧
      stripped before = gs.map Glyph.char ∧ (ofChars cs).position hs = bytes (stripped before) ∧
      (hs = [] → after = []) := by
  obtain ⟨before, after, rfl, chars, starts, rest⟩ := Glyph.strip_eq_append h
  cases hs with
  | nil =>
    obtain rfl := Glyph.strip_eq_nil starts rest
    refine ⟨before, [], ⟨rfl, ?_, ?_⟩, chars, ?_, fun _ => rfl⟩
    · simp [ofChars]
    · simp [ofChars]
    · simp [ofChars, stripped]
  | cons g hs =>
    obtain ⟨after, rfl, place, offset, -⟩ := Glyph.strip_eq_cons starts rest
    refine ⟨before, after, ⟨rfl, ?_, ?_⟩, chars, ?_, by simp⟩
    · simp [Glyph.span, offset]
    · simp [Glyph.span, offset]
    · simp [place]

theorem position_eq (h : (ofChars cs).glyphs = gs ++ hs) :
    (ofChars cs).position hs = bytes (gs.map Glyph.char) := by
  obtain ⟨before, after, -, chars, counted, -⟩ := cuts_span h
  rw [counted, chars]

theorem cuts_glyphs {last : Glyph} {rest : List Glyph}
    (h : (ofChars cs).glyphs = gs ++ (hs ++ last :: rest)) : ∃ before inside after,
      Span.Cuts ⟨((ofChars cs).span (hs ++ last :: rest)).start,
        last.offset + last.char.utf8Size⟩ cs before (inside ++ [last.char]) after ∧
      HasVisibleEnds (inside ++ [last.char]) ∧
      stripped before = gs.map Glyph.char ∧ stripped inside = hs.map Glyph.char ∧
      (ofChars cs).position (hs ++ last :: rest) = bytes (stripped before) ∧
      last.offset = bytes before + bytes inside := by
  obtain ⟨before, after, rfl, chars, starts, tail⟩ := Glyph.strip_eq_append h
  obtain ⟨inside, after, rfl, chars', ends, first, place, -⟩ := Glyph.strip_eq_concat starts tail
  obtain ⟨g, more, parts⟩ : ∃ g more, hs ++ [last] = g :: more :=
    List.exists_cons_of_ne_nil (by simp)
  obtain ⟨counted, start⟩ := first g (by simp [parts])
  have whole : hs ++ last :: rest = g :: (more ++ rest) := by
    rw [← List.cons_append, ← parts, List.append_assoc, List.singleton_append]
  rw [whole]
  refine ⟨before, inside, after, ⟨by simp, ?_, ?_⟩, ends, chars, chars', ?_, ?_⟩
  · simp [Glyph.span, start]
  · simp [place]
    omega
  · simp [counted]
  · simp [place]

theorem cuts_between {last : Glyph} {rest : List Glyph} (size : last.char.utf8Size = 1)
    (h : (ofChars cs).glyphs = gs ++ (hs ++ last :: rest)) : ∃ before inside after,
      Span.Cuts ⟨((ofChars cs).span (hs ++ last :: rest)).start, last.offset + 1⟩ cs before
        (inside ++ [last.char]) after ∧
      stripped before = gs.map Glyph.char ∧ stripped inside = hs.map Glyph.char ∧
      (ofChars cs).position (hs ++ last :: rest) = bytes (stripped before) ∧
      last.offset = bytes before + bytes inside := by
  obtain ⟨before, inside, after, cuts, -, places⟩ := cuts_glyphs h
  rw [size] at cuts
  exact ⟨before, inside, after, cuts, places⟩

/-- After a glyph come blanks, and then the next one or the end. -/
theorem exists_blanks {g : Glyph} {rest : List Glyph} (h : (ofChars cs).glyphs = gs ++ g :: rest) :
    ∃ before blanks after, cs = before ++ g.char :: (blanks ++ after) ∧
      stripped before = gs.map Glyph.char ∧ stripped blanks = [] ∧ g.offset = bytes before ∧
      ((ofChars cs).span rest).start = g.offset + g.char.utf8Size + bytes blanks ∧
      after.head? = rest.head?.map Glyph.char := by
  obtain ⟨before, after, rfl, chars, starts, tail⟩ := Glyph.strip_eq_append h
  obtain ⟨after, rfl, -, offset, tail⟩ := Glyph.strip_eq_cons starts tail
  obtain ⟨blanks, after, rfl, chars', starts', tail⟩ :=
    Glyph.strip_eq_append (tail.trans (List.nil_append _).symm)
  refine ⟨before, blanks, after, rfl, chars, chars', by simp [offset], ?_⟩
  cases rest with
  | nil =>
    obtain rfl := Glyph.strip_eq_nil starts' tail
    refine ⟨?_, rfl⟩
    simp [ofChars, offset]
    omega
  | cons next rest =>
    obtain ⟨after, rfl, -, offset', -⟩ := Glyph.strip_eq_cons starts' tail
    exact ⟨by rw [span_cons, Glyph.span, offset', offset], rfl⟩

theorem between_neighbours {g next : Glyph} (h : (ofChars cs).glyphs = gs ++ g :: next :: hs) :
    ∃ before blanks after, cs = before ++ g.char :: (blanks ++ next.char :: after) ∧
      stripped before = gs.map Glyph.char ∧ stripped blanks = [] ∧
      next.offset = g.offset + g.char.utf8Size + bytes blanks := by
  obtain ⟨before, blanks, after, text, chars, dropped, -, start, head⟩ := exists_blanks h
  obtain ⟨after, rfl⟩ := List.head?_eq_some_iff.mp head
  exact ⟨before, blanks, after, text, chars, dropped, start⟩

end Source

end Abacus
