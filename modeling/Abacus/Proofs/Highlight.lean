import Mathlib
import Abacus.Proofs.Source.Lookup
import Abacus.Proofs.Token.Brackets
import Abacus.Proofs.Token.Lexemes

/-!
The parts of a line and their colours. Each lexeme is one part, so the parts make up the line; they
are also what comes out when the tokens alone are laid over the line by their places. A bracket has
the colour of the number of brackets that are open before it, and the bracket that closes it the same.
-/

namespace Abacus

namespace Token

section

variable {o c k : Kind} {ks ls : List Kind}

theorem Paired.append (h : Paired o c ks) (h' : Paired o c ls) : Paired o c (ks ++ ls) := by
  induction h with
  | nil => exact h'
  | other ho hc _ ih => exact .other ho hc ih
  | @pair ks ls inside _ _ ihAfter =>
    rw [List.cons_append, List.append_assoc, List.cons_append]
    exact .pair inside ihAfter

theorem Paired.reverse (h : Paired o c ks) : Paired c o ks.reverse := by
  induction h with
  | nil => exact .nil
  | other ho hc _ ih =>
    rw [List.reverse_cons]
    exact ih.append (.other hc ho .nil)
  | @pair ks ls _ _ ihInside ihAfter =>
    have parts : (o :: (ks ++ c :: ls)).reverse = ls.reverse ++ (c :: (ks.reverse ++ o :: [])) := by
      simp
    rw [parts]
    exact ihAfter.append (.pair ihInside .nil)

theorem Paired.foldl_tally (distinct : o ≠ c) (h : Paired o c ks) (depth : Nat) :
    ks.foldl (tally o c) depth = depth := by
  induction h generalizing depth with
  | nil => rfl
  | other ho hc _ ih => rw [List.foldl_cons, tally, if_neg ho, if_neg hc, ih]
  | pair _ _ ihInside ihAfter =>
    rw [List.foldl_cons, List.foldl_append, ihInside, List.foldl_cons, ihAfter, tally, tally,
      if_pos rfl, if_neg distinct.symm, if_pos rfl, Nat.add_sub_cancel]

end

/-- The bracket stands after `earlier` and is the last one of `ts` that is open: what follows it has
nothing but pairs. -/
def LastOpen (ts earlier : List Token) (u : Token) : Prop :=
  ∃ between, ts = earlier ++ u :: between ∧ u.kind = .opening ∧
    Paired .opening .closing (between.map kind)

theorem LastOpen.unclosed_eq {ts earlier : List Token} {u : Token} (h : LastOpen ts earlier u) :
    unclosed ts = unclosed earlier + 1 := by
  obtain ⟨between, rfl, opening, paired⟩ := h
  rw [unclosed_eq_foldl, unclosed_eq_foldl, List.map_append, List.map_cons, List.foldl_append,
    List.foldl_cons, paired.foldl_tally (by decide), opening]
  rfl

theorem exists_lastOpen {ts : List Token} (h : 0 < unclosed ts) :
    ∃ earlier u, LastOpen ts earlier u := by
  -- read from the end, the last bracket that is open is the first without a partner
  have fromEnd := unpaired_reverse (o := .opening) (c := .closing) (by decide) (ts.map kind).reverse
  rw [List.reverse_reverse] at fromEnd
  rw [unclosed, fromEnd, ← hasPartner_iff (by decide)] at h
  obtain ⟨inside, after, parts, paired⟩ := h
  have kinds : ts.map kind = after.reverse ++ .opening :: inside.reverse := by
    rw [← List.reverse_reverse (ts.map kind), parts]
    simp
  obtain ⟨earlier, rest, rfl, -, more⟩ := List.map_eq_append_iff.mp kinds
  obtain ⟨u, between, rfl, opening, pairs⟩ := List.map_eq_cons_iff.mp more
  exact ⟨earlier, u, between, rfl, opening, pairs ▸ paired.reverse⟩

theorem unclosed_eq_zero_iff {ts : List Token} :
    unclosed ts = 0 ↔ ∀ earlier u, ¬ LastOpen ts earlier u := by
  constructor
  · intro closed earlier u last
    rw [last.unclosed_eq] at closed
    exact Nat.succ_ne_zero _ closed
  · intro nothing
    by_contra some_open
    obtain ⟨earlier, u, last⟩ := exists_lastOpen (Nat.pos_of_ne_zero some_open)
    exact nothing earlier u last

theorem Lexes.head_ne_gap {start : Nat} {s : List Char} {ts : List Token} (h : Lexes start s ts)
    (solid : ∀ c ∈ s.head?, isGap c = false) : ∀ t ∈ ts.head?, t.kind ≠ .gap := by
  cases h with
  | nil => simp
  | @cons _ kind cs rest _ writes _ _ =>
    obtain ⟨c, run, rfl⟩ := List.exists_cons_of_ne_nil writes.ne_nil
    have here := solid c rfl
    rintro _ ⟨⟩ (rfl : kind = .gap)
    simp [writes.2 c List.mem_cons_self] at here

end Token

namespace Highlight

open Token Text

theorem length_parts (depth : Nat) (ts : List Token) : (parts depth ts).length = ts.length := by
  induction ts generalizing depth with
  | nil => rfl
  | cons t ts ih => rw [parts, List.length_cons, List.length_cons, ih]

theorem map_text_parts (depth : Nat) (ts : List Token) :
    (parts depth ts).map Part.text = ts.map chars := by
  induction ts generalizing depth with
  | nil => rfl
  | cons t ts ih => rw [parts, List.map_cons, ih, List.map_cons]

theorem getElem?_parts (depth : Nat) (before after : List Token) (t : Token) :
    (parts depth (before ++ t :: after))[before.length]? =
      some ⟨style (before.foldl (fun depth t => depthAfter depth t.kind) depth) t.kind, t.chars⟩ := by
  rw [parts_append, List.getElem?_append_right (length_parts depth before).le, length_parts,
    Nat.sub_self]
  rfl

theorem getElem?_line {text : String} {before after : List Token} {t : Token}
    (h : lexemes 0 text.toList = before ++ t :: after) :
    (line text)[before.length]? = some ⟨style (unclosed before) t.kind, t.chars⟩ := by
  rw [line, h, getElem?_parts, foldl_depthAfter]

theorem color_bracket (depth : Nat) :
    (bracket depth).color = [Color.yellow, .magenta, .blue, .green][depth % 4]? := by
  have turn : depth % 4 < 4 := Nat.mod_lt depth (by norm_num)
  rw [bracket]
  generalize depth % 4 = turns at turn
  interval_cases turns <;> rfl

theorem isBold_style {depth : Nat} {kind : Kind} :
    (style depth kind).isBold = true ↔ kind = .closing ∧ depth = 0 := by
  cases kind <;> simp [style, plain, bracket]
  split_ifs with closed <;> simp [unmatched, closed]

theorem color_style {depth : Nat} {kind : Kind} :
    (style depth kind).color = none ↔ kind = .gap := by
  cases kind <;> simp [style, plain, bracket]
  split_ifs <;> simp [unmatched]

theorem color_bracket_ne (depth : Nat) : (bracket depth).color ≠ some .red := by
  unfold bracket
  split <;> simp [plain]

theorem color_red_iff {depth : Nat} {kind : Kind} :
    (style depth kind).color = some .red ↔ kind = .unknown ∨ kind = .closing ∧ depth = 0 := by
  cases kind with
  | closing =>
    by_cases nothing : depth = 0
    · simp [style, nothing, unmatched]
    · simp [style, nothing, color_bracket_ne]
  | opening => simp [style, color_bracket_ne]
  | gap | root | number | operator | unknown => simp [style, plain]

theorem exists_of_mem_parts {depth : Nat} {ts : List Token} {part : Part}
    (h : part ∈ parts depth ts) : ∃ before t after, ts = before ++ t :: after ∧
      part.style = style (before.foldl (fun depth t => depthAfter depth t.kind) depth) t.kind := by
  induction ts generalizing depth with
  | nil => simp [parts] at h
  | cons t ts ih =>
    rw [parts] at h
    cases List.mem_cons.mp h with
    | inl here => exact ⟨[], t, ts, rfl, by rw [here]; rfl⟩
    | inr later =>
      obtain ⟨before, u, after, rfl, styled⟩ := ih later
      exact ⟨t :: before, u, after, rfl, styled⟩

theorem exists_red_iff {text : String} : (∃ part ∈ line text, part.style.color = some .red) ↔
    ∃ before t after, lexemes 0 text.toList = before ++ t :: after ∧
      (t.kind = .unknown ∨ t.kind = .closing ∧ unclosed before = 0) := by
  constructor
  · rintro ⟨part, member, red⟩
    obtain ⟨before, t, after, parts, styled⟩ := exists_of_mem_parts member
    rw [styled, foldl_depthAfter, color_red_iff] at red
    exact ⟨before, t, after, parts, red⟩
  · rintro ⟨before, t, after, parts, kind⟩
    exact ⟨_, List.mem_of_getElem? (getElem?_line parts), color_red_iff.mpr kind⟩

def skipped? (cs : List Char) (first last : Nat) : Option (List Part) :=
  if first < last then (slice? first last cs).map fun text => [⟨⟨none, false⟩, text⟩] else some []

/-- Each token is a part, and so is what lies between it and the place that has been reached. There
is no answer if a place is inside of a character. -/
def overlay? (cs : List Char) : (reached depth : Nat) → List Token → Option (List Part)
  | reached, _, [] => skipped? cs reached (bytes cs)
  | reached, depth, t :: ts => do
    let gap ← skipped? cs reached t.start
    let text ← slice? t.start t.stop cs
    let more ← overlay? cs t.stop (depthAfter depth t.kind) ts
    return gap ++ ⟨style depth t.kind, text⟩ :: more

theorem skipped?_self (cs : List Char) (place : Nat) : skipped? cs place place = some [] :=
  if_neg (lt_irrefl place)

theorem skipped?_gap {gap : List Char} (some_char : gap ≠ []) (before after : List Char) :
    skipped? (before ++ (gap ++ after)) (bytes before) (bytes before + bytes gap) =
      some [⟨⟨none, false⟩, gap⟩] := by
  have positive : bytes before < bytes before + bytes gap := by
    have := List.length_pos_of_ne_nil some_char
    have := length_le_bytes gap
    omega
  rw [skipped?, if_pos positive, slice?_bytes]
  rfl

theorem overlay?_cons {cs text : List Char} {reached depth : Nat} {t : Token} {ts : List Token}
    {more : List Part} (place : t.start = reached) (here : slice? t.start t.stop cs = some text)
    (further : overlay? cs t.stop (depthAfter depth t.kind) ts = some more) :
    overlay? cs reached depth (t :: ts) = some (⟨style depth t.kind, text⟩ :: more) := by
  rw [overlay?, place, skipped?_self, ← place, here, further]
  rfl

theorem overlay?_gap {before gap rest : List Char} {ts : List Token} (some_char : gap ≠ [])
    (next : ts.head?.elim (bytes (before ++ (gap ++ rest))) Token.start = bytes before + bytes gap)
    (depth : Nat) :
    overlay? (before ++ (gap ++ rest)) (bytes before) depth ts =
      (overlay? (before ++ (gap ++ rest)) (bytes before + bytes gap) depth ts).map
        (⟨⟨none, false⟩, gap⟩ :: ·) := by
  cases ts with
  | nil =>
    have next : bytes (before ++ (gap ++ rest)) = bytes before + bytes gap := next
    rw [overlay?, overlay?, next, skipped?_gap some_char, skipped?_self]
    rfl
  | cons t ts =>
    have next : t.start = bytes before + bytes gap := next
    rw [overlay?, overlay?, next, skipped?_gap some_char, skipped?_self]
    cases slice? (bytes before + bytes gap) t.stop (before ++ (gap ++ rest)) with
    | none => rfl
    | some text =>
      cases overlay? (before ++ (gap ++ rest)) t.stop (depthAfter depth t.kind) ts <;> rfl

theorem next_start {start : Nat} {s : List Char} {ts : List Token} (h : Lexes start s ts)
    (solid : ∀ t ∈ ts.head?, t.kind ≠ .gap) :
    (ts.filter fun t => t.kind ≠ .gap).head?.elim (start + bytes s) Token.start = start := by
  cases h with
  | nil => rfl
  | cons => rw [List.filter_cons_of_pos (by simpa using solid _ rfl)]; rfl

theorem overlay?_filter {before rest : List Char} {ts : List Token}
    (h : Lexes (bytes before) rest ts) (depth : Nat) :
    overlay? (before ++ rest) (bytes before) depth (ts.filter fun t => t.kind ≠ .gap) =
      some (parts depth ts) := by
  induction ts generalizing before rest depth with
  | nil =>
    cases h with
    | nil => simp [overlay?, skipped?_self, parts]
  | cons t ts ih =>
    cases h with
    | @cons _ kind cs rest _ writes stops more =>
      rw [← bytes_append] at more
      have further := ih more (depthAfter depth kind)
      rw [List.append_assoc, bytes_append] at further
      by_cases gap : kind = .gap
      · -- the place reached stays before the gap until the next token, or the end, is met
        subst gap
        have next := next_start more (more.head_ne_gap stops)
        rw [← bytes_append, List.append_assoc, bytes_append before cs] at next
        rw [List.filter_cons_of_neg (by simp), overlay?_gap writes.1 next]
        exact congrArg (Option.map _) further
      · rw [List.filter_cons_of_pos (by simpa using gap)]
        exact overlay?_cons rfl (slice?_bytes before cs rest) further

/-- The parts of a line are its text, none of them empty, and they are the tokens laid over it. A
gap has no colour, stands between tokens and has nothing but blanks that are skipped. An opening
bracket has one of four colours, by turns as the number of brackets that are open before it. A
closing bracket looks like the one it closes; where none is open it is red and bold, and nothing else
is bold. -/
theorem line_parts (text : String) :
    (line text).flatMap Part.text = text.toList ∧ (∀ part ∈ line text, part.text ≠ []) ∧
    overlay? text.toList 0 0 (ofLine text) = some (line text) ∧
    (line text).length = (lexemes 0 text.toList).length ∧
    ∀ before t after, lexemes 0 text.toList = before ++ t :: after →
      t.span.Cuts text.toList (before.flatMap chars) t.chars (after.flatMap chars) ∧
      t.kind.Writes t.chars ∧ (t.kind = .gap → ∀ u ∈ after.head?, u.kind ≠ .gap) ∧
      ∃ style, (line text)[before.length]? = some ⟨style, t.chars⟩ ∧
        (style.color = none ↔ t.kind = .gap) ∧
        (t.kind = .opening → style.color =
          [Color.yellow, .magenta, .blue, .green][unclosed before % 4]?) ∧
        (t.kind = .closing → (∀ earlier u, LastOpen before earlier u →
            (line text)[earlier.length]? = some ⟨style, u.chars⟩) ∧
          ((∀ earlier u, ¬ LastOpen before earlier u) → style = ⟨some .red, true⟩)) ∧
        (style.isBold = true ↔ t.kind = .closing ∧ ∀ earlier u, ¬ LastOpen before earlier u) := by
  refine ⟨flatMap_text_line text, fun part member => ?_, ?_, length_parts 0 _, ?_⟩
  · have text_mem : part.text ∈ (line text).map Part.text := List.mem_map_of_mem member
    rw [line, map_text_parts] at text_mem
    obtain ⟨t, there, same⟩ := List.mem_map.mp text_mem
    exact same ▸ (writes_of_mem there).ne_nil
  · have whole : Lexes (bytes []) text.toList (lexemes 0 text.toList) := lexes_lexemes 0 _
    exact overlay?_filter whole 0
  · intro before t after parts
    obtain ⟨-, -, writes, stops, more⟩ := (parts ▸ lexes_lexemes 0 text.toList).split
    refine ⟨cuts_span parts, writes, fun gap => ?_, _, getElem?_line parts, color_style,
      fun opening => ?_, fun closing => ⟨fun earlier u last => ?_, fun nothing => ?_⟩, ?_⟩
    · rw [gap] at stops
      exact more.head_ne_gap stops
    · rw [opening]
      exact color_bracket (unclosed before)
    -- the bracket that is closed was opened at the depth that is found here
    · have depth := last.unclosed_eq
      obtain ⟨between, rfl, opening, -⟩ := last
      rw [List.append_assoc, List.cons_append] at parts
      rw [getElem?_line parts, opening, closing, depth]
      rfl
    · rw [closing, unclosed_eq_zero_iff.mpr nothing]
      rfl
    · rw [isBold_style, unclosed_eq_zero_iff]

/-- A bracket inside of another has the next colour and is closed over a gap; the last one closes
nothing. -/
theorem line_brackets_and_stray :
    (lexemes 0 "(( )))".toList = [⟨.opening, ['('], 0⟩, ⟨.opening, ['('], 1⟩, ⟨.gap, [' '], 2⟩,
      ⟨.closing, [')'], 3⟩, ⟨.closing, [')'], 4⟩, ⟨.closing, [')'], 5⟩]) ∧
    LastOpen [⟨.opening, ['('], 0⟩, ⟨.opening, ['('], 1⟩, ⟨.gap, [' '], 2⟩] [⟨.opening, ['('], 0⟩]
      ⟨.opening, ['('], 1⟩ ∧
    (∃ style, (line "(( )))")[0]? = some ⟨style, ['(']⟩ ∧ style.color = some .yellow) ∧
    (∃ style, (line "(( )))")[1]? = some ⟨style, ['(']⟩ ∧ style.color = some .magenta ∧
      (line "(( )))")[3]? = some ⟨style, [')']⟩) ∧
    (line "(( )))")[5]? = some ⟨⟨some .red, true⟩, [')']⟩ := by
  have cut : lexemes 0 "(( )))".toList = [⟨.opening, ['('], 0⟩, ⟨.opening, ['('], 1⟩,
      ⟨.gap, [' '], 2⟩, ⟨.closing, [')'], 3⟩, ⟨.closing, [')'], 4⟩, ⟨.closing, [')'], 5⟩] := by
    decide +kernel
  have last : LastOpen [⟨.opening, ['('], 0⟩, ⟨.opening, ['('], 1⟩, ⟨.gap, [' '], 2⟩]
      [⟨.opening, ['('], 0⟩] ⟨.opening, ['('], 1⟩ :=
    ⟨[⟨.gap, [' '], 2⟩], rfl, rfl, .other (by decide) (by decide) .nil⟩
  have all := (line_parts "(( )))").2.2.2.2
  obtain ⟨-, -, -, outer, first, -, yellow, -, -⟩ := all [] ⟨.opening, ['('], 0⟩ _ cut
  obtain ⟨-, -, -, inner, second, -, magenta, -, -⟩ :=
    all [⟨.opening, ['('], 0⟩] ⟨.opening, ['('], 1⟩ _ cut
  obtain ⟨-, -, -, style, here, -, -, closing, -⟩ := all
    [⟨.opening, ['('], 0⟩, ⟨.opening, ['('], 1⟩, ⟨.gap, [' '], 2⟩] ⟨.closing, [')'], 3⟩ _ cut
  obtain ⟨-, -, -, style', here', -, -, closing', -⟩ := all
    [⟨.opening, ['('], 0⟩, ⟨.opening, ['('], 1⟩, ⟨.gap, [' '], 2⟩, ⟨.closing, [')'], 3⟩,
      ⟨.closing, [')'], 4⟩] ⟨.closing, [')'], 5⟩ [] cut
  refine ⟨cut, last, ⟨outer, first, yellow rfl⟩, ⟨inner, second, magenta rfl, ?_⟩, ?_⟩
  · obtain rfl : style = inner := by simpa using ((closing rfl).1 _ _ last).symm.trans second
    exact here
  · rw [(closing' rfl).2 (unclosed_eq_zero_iff.mp (by decide))] at here'
    exact here'

end Highlight

end Abacus
