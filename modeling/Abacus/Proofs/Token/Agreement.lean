import Mathlib
import Abacus.Proofs.Expression.Gaps
import Abacus.Proofs.Expression.Terminals
import Abacus.Proofs.Highlight
import Abacus.Proofs.Token.Waiting

/-!
What the lexer and the reader make of the same text. The lexer skips five blanks and takes the word
for the root only as it is; the reader skips all blanks, also inside of that word. In a text that
keeps to the less of both, the tokens are the terminals that are taken for its value; in any other
that has a value, some lexeme is unknown.
-/

namespace Abacus

open Text Expression

namespace Token

def terminal (t : Token) : Terminal :=
  ⟨t.kind, t.chars, t.span⟩

/-- All blanks are such as tokens skip, and the word for the root has none in it. -/
structure Legible (cs : List Char) : Prop where
  gaps : ∀ c ∈ cs, isBlank c = true → isGap c = true
  word : ∀ before word after, cs = before ++ (word ++ after) → HasVisibleEnds word →
    stripped word = 's' :: rootTail → word = 's' :: rootTail

theorem Legible.isGap_of_stripped {blanks cs : List Char} (h : Legible cs) (begins : blanks <+: cs)
    (dropped : stripped blanks = []) : ∀ c ∈ blanks, isGap c = true := fun c member => by
  refine h.gaps c (begins.mem member) ?_
  simpa using List.filter_eq_nil_iff.mp dropped c member

theorem Legible.suffix {cs ds : List Char} (h : Legible (cs ++ ds)) : Legible ds where
  gaps c member := h.gaps c (List.mem_append_right cs member)
  word before word after parts :=
    h.word (cs ++ before) word after (by rw [parts, List.append_assoc])

theorem Legible.inside_eq {inside after : List Char} {kind : Kind} {gs rest : List Glyph}
    {last : Glyph} {offset : Nat} (h : Legible (inside ++ last.char :: after))
    (spells : Spells kind (gs ++ [last]) rest) (chars : stripped inside = gs.map Glyph.char)
    (ends : HasVisibleEnds (inside ++ [last.char]))
    (first : ∀ g ∈ (gs ++ [last]).head?, g.offset = offset)
    (place : last.offset = offset + bytes inside) : inside = gs.map Glyph.char := by
  rw [← chars]
  by_cases root : kind = .root
  · have solid : isBlank last.char = false := by simpa using ends.last
    have dropped : stripped (inside ++ [last.char]) = stripped inside ++ [last.char] := by
      rw [stripped_append, stripped_cons solid, stripped_nil]
    have letters : stripped (inside ++ [last.char]) = 's' :: rootTail := by
      have writes := spells.writes
      rw [root] at writes
      rw [dropped, chars, ← List.map_singleton, ← List.map_append]
      exact writes
    have written := h.word [] (inside ++ [last.char]) after (by simp) ends letters
    exact List.append_cancel_right ((written.trans letters.symm).trans dropped)
  · have length : last.offset = offset + gs.length := by
      have contiguous := spells.contiguous root
      cases gs with
      | nil => simpa using first
      | cons g gs =>
        rw [contiguous_offset contiguous, first g rfl, List.length_cons]
    have enough := length_le_bytes (stripped inside)
    rw [chars, List.length_map, ← chars] at enough
    exact (stripped_eq_self (by omega)).symm

theorem isBlank_of_isGap {c : Char} (h : isGap c = true) : isBlank c = true := by
  obtain (((rfl | rfl) | rfl) | rfl) | rfl :
      (((c = ' ' ∨ c = '\t') ∨ c = '\r') ∨ c = '\n') ∨ c = '\x0c' := by simpa [isGap] using h
  all_goals decide

theorem not_isGap_of_not_isBlank {c : Char} (h : isBlank c = false) : isGap c = false := by
  by_contra gap
  simp [isBlank_of_isGap (Bool.not_eq_false _ ▸ gap)] at h

theorem Lexes.after_gap {start : Nat} {gap rest : List Char} {ts : List Token}
    (h : Lexes (start + bytes gap) rest ts) (blank : ∀ c ∈ gap, isGap c = true)
    (solid : ∀ c ∈ rest.head?, isGap c = false) : ∃ us, Lexes start (gap ++ rest) us ∧
      (us.filter fun t => t.kind ≠ .gap) = ts.filter fun t => t.kind ≠ .gap := by
  by_cases nothing : gap = []
  · exact ⟨ts, by simpa [nothing] using h, rfl⟩
  · have writes : Kind.gap.Writes gap := ⟨nothing, blank⟩
    exact ⟨_, .cons writes solid h, List.filter_cons_of_neg (by simp)⟩

theorem terminal_eq_of {kind : Kind} {gs : List Glyph} {last : Glyph} {start : Nat}
    (first : ∀ g ∈ (gs ++ [last]).head?, g.offset = start)
    (place : last.offset = start + bytes (gs.map Glyph.char)) :
    terminal ⟨kind, (gs ++ [last]).map Glyph.char, start⟩ = .of kind (gs ++ [last]) := by
  obtain ⟨g, more, parts⟩ := List.exists_cons_of_ne_nil (l := gs ++ [last]) (by simp)
  have here := first g (by simp [parts])
  have stop : last.span.stop = start + bytes ((gs ++ [last]).map Glyph.char) := by
    simp [Glyph.span, place, Nat.add_assoc]
  rw [Terminal.of, List.getLast?_concat, Option.elim_some, stop, parts, List.head?_cons,
    Option.elim_some, Glyph.span, here]
  rfl

theorem stops_of_spells {kind : Kind} {gs rest : List Glyph} {last : Glyph} {word after : List Char}
    {position : Nat} (spells : Spells kind (gs ++ [last]) rest)
    (more : Glyph.strip position (last.offset + last.char.utf8Size) after = rest) :
    kind.Stops word after := by
  cases kind with
  | gap => exact absurd rfl spells.visible.1
  | unknown => exact absurd rfl spells.visible.2
  | root | opening | closing | operator => trivial
  | number =>
    intro c head
    by_contra numeric
    have numeric : Literal.isNumeric c = true := Bool.not_eq_false _ ▸ numeric
    obtain ⟨after, rfl⟩ := List.head?_eq_some_iff.mp head
    rw [Glyph.strip_cons (Literal.isBlank_of_isNumeric numeric)] at more
    have apart := spells.stops rfl last (by simp) _ (by rw [← more]; rfl) numeric
    have size := utf8Size_of_isNumeric (spells.writes.2 last.char (by simp))
    simp [Glyph.isFollowedBy, size] at apart

end Token

open Token

/-- In a legible text the lexemes that are no gaps are the terminals. -/
theorem Segments.lexes {gs : List Glyph} {ts : List Terminal} (h : Segments gs ts [])
    {cs : List Char} {position offset : Nat} (legible : Legible cs)
    (glyphs : Glyph.strip position offset cs = gs) : ∃ lex, Lexes offset cs lex ∧
      (lex.filter fun t => t.kind ≠ .gap).map terminal = ts := by
  generalize ended : ([] : List Glyph) = s at h
  induction h generalizing cs position offset with
  | nil =>
    subst ended
    have nothing : stripped cs = [] := by
      rw [← List.length_eq_zero_iff, ← Glyph.length_strip position offset, glyphs, List.length_nil]
    have finish : Lexes (offset + bytes cs) [] [] := .nil
    obtain ⟨us, cut, kept⟩ := finish.after_gap
      (legible.isGap_of_stripped (List.prefix_refl cs) nothing) (by simp)
    exact ⟨us, by simpa using cut, by rw [kept]; rfl⟩
  | @cons kind gs rest ts s spells _ ih =>
    -- blanks come first, then the terminal, then the text of what is left
    obtain ⟨init, last, rfl⟩ := List.eq_nil_or_concat' gs |>.resolve_left fun nothing =>
      spells.writes.ne_nil (by rw [nothing, List.map_nil])
    rw [← List.nil_append (_ ++ _ ++ _)] at glyphs
    obtain ⟨blanks, cs, rfl, dropped, starts, glyphs⟩ := Glyph.strip_eq_append glyphs
    rw [List.append_assoc] at glyphs
    obtain ⟨inside, after, rfl, chars, ends, first, place, more⟩ :=
      Glyph.strip_eq_concat starts glyphs
    have first := fun g head => (first g head).2
    obtain rfl := legible.suffix.inside_eq spells chars ends first place
    have text : init.map Glyph.char ++ last.char :: after =
        (init ++ [last]).map Glyph.char ++ after := by simp
    rw [text] at legible starts ⊢
    obtain ⟨lex, cut, terminals⟩ := ih legible.suffix.suffix more ended
    have reached : last.offset + last.char.utf8Size =
        offset + bytes blanks + bytes ((init ++ [last]).map Glyph.char) := by
      simp [place, Nat.add_assoc]
    rw [reached] at cut
    have token := Lexes.cons spells.writes (stops_of_spells spells more) cut
    obtain ⟨us, whole, kept⟩ := token.after_gap
      (legible.isGap_of_stripped (List.prefix_append _ _) dropped)
      fun c head => not_isGap_of_not_isBlank (starts c head)
    refine ⟨us, whole, ?_⟩
    rw [kept, List.filter_cons_of_pos (by simpa using spells.visible.1), List.map_cons, terminals,
      terminal_eq_of first place]

namespace Token

variable {text : String} {limit : Nat}

theorem terminals_ofLine {ts : List Terminal}
    (h : Segments (Source.ofText text).glyphs ts []) (legible : Legible text.toList) :
    (ofLine text).map terminal = ts := by
  have glyphs : Glyph.strip 0 0 text.toList = (Source.ofText text).glyphs := rfl
  obtain ⟨lex, cut, terminals⟩ := h.lexes legible glyphs
  rw [ofLine, ← lexes_iff.mp cut, terminals]

theorem solid_of_stripped {cs : List Char} (h : stripped cs = cs) :
    ∀ c ∈ cs, isBlank c = false := by
  simpa using List.filter_eq_self.mp h

theorem Kind.Writes.not_isBlank {kind : Kind} {cs : List Char} (h : kind.Writes cs)
    (known : kind ≠ .gap ∧ kind ≠ .unknown) : ∀ c ∈ cs, isBlank c = false := by
  cases kind with
  | gap => exact absurd rfl known.1
  | unknown => exact absurd rfl known.2
  | root => exact h ▸ solid_of_stripped rfl
  | opening => exact h ▸ solid_of_stripped rfl
  | closing => exact h ▸ solid_of_stripped rfl
  | number => exact fun c member => Literal.isBlank_of_isNumeric (h.2 c member)
  | operator =>
    obtain ⟨c, rfl, isOperator⟩ := h
    obtain ⟨op, rfl⟩ := isOperator_iff.mp isOperator
    simpa using isBlank_symbol op

theorem Kind.Writes.of_first_letter {kind : Kind} {us vs : List Char}
    (h : kind.Writes (us ++ 's' :: vs)) (known : kind ≠ .unknown) : us = [] ∧ vs = rootTail := by
  -- only the word for the root has the letter it begins with
  have member : 's' ∈ us ++ 's' :: vs := by simp
  cases kind with
  | gap => exact absurd (h.2 _ member) (by decide)
  | number => exact absurd (h.2 _ member) (by decide)
  | unknown => exact absurd rfl known
  | opening =>
    rw [h] at member
    simp at member
  | closing =>
    rw [h] at member
    simp at member
  | operator =>
    obtain ⟨c, same, op⟩ := h
    rw [same, List.mem_singleton] at member
    subst member
    simp [isOperator] at op
  | root =>
    cases us with
    | nil => exact ⟨rfl, (List.cons.inj h).2⟩
    | cons u us =>
      have tail : us ++ 's' :: vs = rootTail := (List.cons.inj h).2
      have later : 's' ∈ rootTail := tail ▸ by simp
      exact absurd later (by decide)

theorem eq_of_stripped {cs word after more : List Char} (ends : HasVisibleEnds cs)
    (letters : stripped cs = word) (solid : stripped word = word)
    (begins : cs ++ after = word ++ more) : cs = word := by
  obtain ⟨rest, parts, -⟩ | ⟨rest, parts, -⟩ := List.append_eq_append_iff.mp begins
  · have shorter := List.length_filter_le (fun c => !isBlank c) cs
    rw [← stripped, letters, parts, List.length_append] at shorter
    rw [parts, List.length_eq_zero_iff.mp (by omega : rest.length = 0), List.append_nil]
  · rw [parts, stripped_append, solid, List.append_right_eq_self] at letters
    cases last : rest.getLast? with
    | none => rw [parts, List.getLast?_eq_none_iff.mp last, List.append_nil]
    | some d =>
      obtain ⟨c, final, visible⟩ := ends.last
      rw [parts, List.getLast?_append, last, Option.some_or, Option.mem_some_iff] at final
      have blank := List.filter_eq_nil_iff.mp letters d (List.mem_of_getLast? last)
      simp [final, visible] at blank

theorem legible_of_known {cs : List Char} (known : ∀ t ∈ lexemes 0 cs, t.kind ≠ .unknown) :
    Legible cs where
  gaps c member blank := by
    obtain ⟨xs, ys, parts⟩ := List.append_of_mem member
    obtain ⟨before, t, after, us, vs, lex, chars, -⟩ :=
      exists_piece ((flatMap_chars_lexemes 0 cs).trans parts)
    have there : t ∈ lexemes 0 cs := by simp [lex]
    have within : c ∈ t.chars := by simp [chars]
    have writes := writes_of_mem there
    by_cases gap : t.kind = .gap
    · rw [gap] at writes
      exact writes.2 c within
    · have solid := writes.not_isBlank ⟨gap, known t there⟩ c within
      simp [blank] at solid
  word before word after parts ends letters := by
    obtain ⟨c, head, solid⟩ := ends.head
    obtain ⟨w, rfl⟩ := List.head?_eq_some_iff.mp head
    have first := letters
    rw [stripped_cons solid] at first
    obtain rfl := (List.cons.inj first).1
    -- the first letter is in some lexeme, and what is known of that makes it the whole word
    obtain ⟨earlier, t, more, us, vs, lex, chars, tail⟩ :=
      exists_piece ((flatMap_chars_lexemes 0 cs).trans parts)
    have there : t ∈ lexemes 0 cs := by simp [lex]
    obtain ⟨-, rfl⟩ := (chars ▸ writes_of_mem there).of_first_letter (known t there)
    exact eq_of_stripped ends letters rfl (congrArg ('s' :: ·) tail)

theorem known_ofLine_iff : (∀ t ∈ ofLine text, t.kind ≠ .unknown) ↔
    ∀ t ∈ lexemes 0 text.toList, t.kind ≠ .unknown := by
  refine ⟨fun known t there unknown => ?_,
    fun known t there => known t (List.mem_of_mem_filter there)⟩
  exact known t (List.mem_filter.mpr ⟨there, by simp [unknown]⟩) unknown

/-- Without its record a reading makes the moves of the production, and what it comes to is the
evaluation. If a text has a value and is legible, the terminals that are taken for the value are the
tokens of the text in their order, with the same characters and places. A token stands in the text
where its place says, and has the characters of its kind. -/
theorem record_eq_ofLine (text : String) (limit : Nat) :
    (∀ src, (Recording.whole src limit).erase = whole src limit) ∧
    (record text limit).map Prod.fst = evaluate text limit ∧
    (∀ v, evaluate text limit = .ok v → Legible text.toList →
      record text limit = .ok (v, (ofLine text).map terminal)) ∧
    ∀ t ∈ ofLine text, t.kind.Writes t.chars ∧
      ∃ before after, t.span.Cuts text.toList before t.chars after := by
  refine ⟨fun src => Recording.erase_whole src limit, record_erase text limit,
    fun v evaluated legible => ?_, fun t member => ?_⟩
  · obtain ⟨ts, recorded⟩ := exists_record evaluated
    rw [recorded, terminals_ofLine (segments_of_record recorded) legible]
  · have there := List.mem_of_mem_filter member
    obtain ⟨before, after, parts⟩ := List.append_of_mem there
    exact ⟨writes_of_mem there, _, _, cuts_span parts⟩

theorem record_root_and_signs : Legible "sqrt( 4 ) - -1.5".toList ∧
    record "sqrt( 4 ) - -1.5" 2 = .ok (3.5, [⟨.root, "sqrt".toList, ⟨0, 4⟩⟩,
      ⟨.opening, ['('], ⟨4, 5⟩⟩, ⟨.number, ['4'], ⟨6, 7⟩⟩, ⟨.closing, [')'], ⟨8, 9⟩⟩,
      ⟨.operator, ['-'], ⟨10, 11⟩⟩, ⟨.operator, ['-'], ⟨12, 13⟩⟩,
      ⟨.number, "1.5".toList, ⟨13, 16⟩⟩]) := by
  have legible : Legible "sqrt( 4 ) - -1.5".toList := legible_of_known (by decide +kernel)
  have value : evaluate "sqrt( 4 ) - -1.5" 2 = .ok 3.5 := by decide +kernel
  refine ⟨legible, ?_⟩
  rw [(record_eq_ofLine "sqrt( 4 ) - -1.5" 2).2.2.1 3.5 value legible]
  decide +kernel

theorem unclosed_ne_zero {text : String} {limit : Nat} {v : Float} {before after : List Token}
    {t : Token} (h : evaluate text limit = .ok v)
    (parts : lexemes 0 text.toList = before ++ t :: after) (closing : t.kind = .closing) :
    unclosed before ≠ 0 := by
  -- up to this bracket, and with it, at most as many are closed as have been opened
  have writes : ∀ u ∈ before, u.kind.Writes u.chars := fun u member =>
    writes_of_mem (parts ▸ List.mem_append_left _ member)
  have begins : before.flatMap chars ++ [')'] <+: text.toList := by
    have bracket : t.chars = [')'] := by
      have here := writes_of_mem (parts ▸ List.mem_append_right before List.mem_cons_self)
      rwa [closing] at here
    refine ⟨after.flatMap chars, ?_⟩
    rw [(cuts_span parts).text_eq, bracket, List.append_assoc]
  have few := (balanced_of_evaluate h).count_le (begins.filter fun c => !isBlank c)
  rw [← stripped, count_stripped rfl, count_stripped rfl, List.count_append, List.count_append,
    count_bracket .opening writes, count_bracket .closing writes] at few
  have balance := unclosed_add_count before
  simp at few
  omega

theorem known_of_legible {v : Float} (h : evaluate text limit = .ok v)
    (legible : Legible text.toList) : ∀ t ∈ ofLine text, t.kind ≠ .unknown := by
  obtain ⟨ts, recorded⟩ := exists_record h
  have cut := segments_of_record recorded
  intro t member
  exact cut.visible (terminal t) (terminals_ofLine cut legible ▸ List.mem_map_of_mem member)

theorem exists_unknown (illegible : ¬ Legible text.toList) :
    ∃ t ∈ lexemes 0 text.toList, t.kind = .unknown := by
  by_contra known
  push Not at known
  exact illegible (legible_of_known known)

/-- What has a value has unknown lexemes only if it is not legible. Legible, it has no bracket open
at its end, and no part of it is red; otherwise nothing is known of its brackets, and some part is
red. -/
theorem known_iff_legible {text : String} {limit : Nat} {v : Float}
    (h : evaluate text limit = .ok v) :
    ((∀ t ∈ ofLine text, t.kind ≠ .unknown) ↔ Legible text.toList) ∧
    (Legible text.toList → openBrackets? (ofLine text) = some 0 ∧
      ∀ part ∈ Highlight.line text, part.style.color ≠ some .red) ∧
    (¬ Legible text.toList → openBrackets? (ofLine text) = none ∧
      ∃ part ∈ Highlight.line text, part.style.color = some .red) := by
  refine ⟨⟨fun known => legible_of_known (known_ofLine_iff.mp known), known_of_legible h⟩,
    fun legible => ⟨?_, ?_⟩, fun illegible => ?_⟩
  · have pairs := (balanced_of_evaluate h).count_eq
    rw [count_stripped rfl, count_stripped rfl] at pairs
    rw [openBrackets?_count (known_of_legible h legible), pairs, Nat.sub_self]
  · intro part member red
    obtain ⟨before, t, after, parts, unknown | ⟨closing, nothing⟩⟩ :=
      Highlight.exists_red_iff.mp ⟨part, member, red⟩
    · exact known_ofLine_iff.mp (known_of_legible h legible) t (by simp [parts]) unknown
    · exact unclosed_ne_zero h parts closing nothing
  · obtain ⟨t, there, unknown⟩ := exists_unknown illegible
    have member : t ∈ ofLine text := List.mem_filter.mpr ⟨there, by simp [unknown]⟩
    obtain ⟨before, after, parts⟩ := List.append_of_mem there
    exact ⟨openBrackets?_of_unknown ⟨t, member, unknown⟩,
      Highlight.exists_red_iff.mpr ⟨before, t, after, parts, .inl unknown⟩⟩

theorem known_iff_legible_root :
    (openBrackets? (ofLine "sqrt( 4 )") = some 0 ∧
      ∀ part ∈ Highlight.line "sqrt( 4 )", part.style.color ≠ some .red) ∧
    (openBrackets? (ofLine "1\u2003+ 2") = none ∧
      ∃ part ∈ Highlight.line "1\u2003+ 2", part.style.color = some .red) ∧
    ∃ part ∈ Highlight.line "sq rt(4)", part.style.color = some .red := by
  have gaps : evaluate "sqrt( 4 )" 2 = .ok 2 := by decide +kernel
  have blank : evaluate "1\u2003+ 2" 1 = .ok 3 := by decide +kernel
  have word : evaluate "sq rt(4)" 2 = .ok 2 := by decide +kernel
  obtain ⟨legible, shown, -⟩ := known_iff_legible gaps
  obtain ⟨illegible, -, marked⟩ := known_iff_legible blank
  obtain ⟨illegible', -, marked'⟩ := known_iff_legible word
  refine ⟨shown (legible.mp (by decide +kernel)), marked (mt illegible.mpr (by decide +kernel)), ?_⟩
  exact (marked' (mt illegible'.mpr (by decide +kernel))).2

theorem openBrackets?_of_foreign_blank : evaluate "1\u00a0+ 2" 1 = .ok 3 ∧
    (∃ t ∈ ofLine "1\u00a0+ 2", t.kind = .unknown) ∧ openBrackets? (ofLine "1\u00a0+ 2") = none ∧
    ∃ part ∈ Highlight.line "1\u00a0+ 2", part.style.color = some .red := by
  decide +kernel

end Token

end Abacus
