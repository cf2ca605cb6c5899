import Mathlib
import Abacus.Proofs.Expression.Location
import Abacus.Proofs.Expression.Registers

/-!
The descent with registers does what the productions do. Where one of them reads a list of glyphs,
its routine starts from the position of that list; it ends alike, with the cursor at the position of
what is left and the depth as it was. On the way every visit finds the cursor between two characters,
not before an earlier one, and the depth equal to the number of expressions that are open.
-/

namespace Abacus.Expression

open Text

namespace Routine

variable {α β : Type}

theorem bind_of_ok {x : Routine α} {f : α → Routine β} {frames : List Frame} {r r' : Registers}
    {a : α} {visits : List Visit} (first : x frames r = ⟨.ok a, r', visits⟩) :
    (x >>= f) frames r = ⟨(f a frames r').result, (f a frames r').registers,
      visits ++ (f a frames r').visits⟩ := by
  simp only [bind, first]

theorem bind_of_error {x : Routine α} {f : α → Routine β} {frames : List Frame} {r r' : Registers}
    {h : Halt} {visits : List Visit} (first : x frames r = ⟨.error h, r', visits⟩) :
    (x >>= f) frames r = ⟨.error h, r', visits⟩ := by
  simp only [bind, first]

end Routine

def atom (src : Source) (nested : Production Float) : Production Float := do
  let s ← Scan.look
  if beginsWith ['('] s then group src nested else Literal.number src

open Routine

namespace Evaluator

structure Fits (ev : Evaluator) : Prop where
  size_le : ev.source.size ≤ ev.capacity
  limit_le : ev.limit ≤ ev.capacity

/-- The cursor is between two characters, and the depth counts the open expressions. -/
structure Sound (ev : Evaluator) (v : Visit) : Prop where
  cursor : IsBoundary (stripped ev.text) v.registers.cursor
  cursor_le : v.registers.cursor ≤ bytes (stripped ev.text)
  depth : v.registers.depth = opened v.frames
  depth_le : v.registers.depth ≤ ev.limit

structure Steady (ev : Evaluator) (first last : Nat) (visits : List Visit) : Prop where
  le : first ≤ last
  sound : ∀ v ∈ visits, ev.Sound v
  between : ∀ v ∈ visits, first ≤ v.registers.cursor ∧ v.registers.cursor ≤ last
  ordered : (visits.map (·.registers.cursor)).Pairwise (· ≤ ·)

/-- The routine does to the registers what has ended so: from the place of `s`, at the depth of the
open expressions, to the place of what is left, at the same depth. -/
def Mirrors {α : Type} (ev : Evaluator) (x : Routine α) (frames : List Frame) (s : List Glyph)
    (ends : Except Fault α × List Glyph) : Prop :=
  ∃ visits, x frames ⟨ev.source.position s, opened frames⟩ =
      ⟨ends.1.mapError .fault, ⟨ev.source.position ends.2, opened frames⟩, visits⟩ ∧
    ev.Steady (ev.source.position s) (ev.source.position ends.2) visits

variable {ev : Evaluator} {α β : Type} {frames : List Frame} {s t rest : List Glyph} {d : Nat}

theorem Steady.nil {first last : Nat} (le : first ≤ last) : ev.Steady first last [] :=
  ⟨le, by simp, by simp, by simp⟩

theorem Steady.append {first middle last : Nat} {vs ws : List Visit}
    (h : ev.Steady first middle vs) (h' : ev.Steady middle last ws) :
    ev.Steady first last (vs ++ ws) := by
  refine ⟨h.le.trans h'.le, ?_, ?_, ?_⟩
  · exact List.forall_mem_append.mpr ⟨h.sound, h'.sound⟩
  · refine List.forall_mem_append.mpr ⟨fun v hv => ?_, fun v hv => ?_⟩
    · exact ⟨(h.between v hv).1, (h.between v hv).2.trans h'.le⟩
    · exact ⟨h.le.trans (h'.between v hv).1, (h'.between v hv).2⟩
  · rw [List.map_append, List.pairwise_append]
    refine ⟨h.ordered, h'.ordered, fun p hp q hq => ?_⟩
    obtain ⟨v, hv, rfl⟩ := List.mem_map.mp hp
    obtain ⟨w, hw, rfl⟩ := List.mem_map.mp hq
    exact (h.between v hv).2.trans (h'.between w hw).1

theorem Steady.singleton {v : Visit} (sound : ev.Sound v) :
    ev.Steady v.registers.cursor v.registers.cursor [v] :=
  ⟨le_rfl, by simpa using sound, by simp, by simp⟩

theorem position_le (hs : s <:+ ev.source.glyphs) (ht : t <:+ s) :
    ev.source.position s ≤ ev.source.position t := by
  obtain ⟨before, place⟩ := hs
  obtain ⟨between, rfl⟩ := ht
  rw [← Source.position_add_bytes place.symm]
  exact Nat.le_add_right _ _

theorem position_lt {g : Glyph} (left : g :: s <:+ ev.source.glyphs) :
    ev.source.position (g :: s) < ev.source.position s := by
  obtain ⟨before, place⟩ := left
  rw [Source.position_advance place.symm]
  exact Nat.lt_add_of_pos_right (Char.utf8Size_pos g.char)

theorem Mirrors.pure (a : α) : ev.Mirrors (pure a) frames s (.ok a, s) :=
  ⟨[], rfl, .nil le_rfl⟩

theorem Mirrors.ofExcept (r : Except Fault α) : ev.Mirrors (ofExcept r) frames s (r, s) :=
  ⟨[], rfl, .nil le_rfl⟩

theorem Mirrors.bind {x : Routine β} {f : β → Routine α} {y : Production β} {k : β → Production α}
    (first : ev.Mirrors x frames s (y.run t))
    (next : ∀ b rest, y.run t = (.ok b, rest) → rest <:+ t →
      ev.Mirrors (f b) frames rest ((k b).run rest)) :
    ev.Mirrors (x >>= f) frames s ((y >>= k).run t) := by
  obtain ⟨visits, ran, steady⟩ := first
  rw [Scan.run_bind]
  have left := y.suffix t
  cases ended : y.run t with
  | mk result rest =>
    rw [ended] at ran steady left
    cases result with
    | error e => exact ⟨visits, bind_of_error ran, steady⟩
    | ok b =>
      obtain ⟨visits', ran', steady'⟩ := next b rest ended left
      refine ⟨visits ++ visits', ?_, steady.append steady'⟩
      rw [bind_of_ok ran, ran']

theorem Mirrors.step {x : Routine β} {f : β → Routine α} {b : β}
    {ends : Except Fault α × List Glyph}
    (ran : x frames ⟨ev.source.position s, opened frames⟩ =
      ⟨.ok b, ⟨ev.source.position t, opened frames⟩, []⟩)
    (le : ev.source.position s ≤ ev.source.position t)
    (next : ev.Mirrors (f b) frames t ends) : ev.Mirrors (x >>= f) frames s ends := by
  obtain ⟨visits, ran', steady⟩ := next
  refine ⟨visits, ?_, (Steady.nil le).append steady⟩
  rw [bind_of_ok ran, ran', List.nil_append]

theorem Mirrors.registers_bind {f : Registers → Routine α} {ends : Except Fault α × List Glyph}
    (next : ev.Mirrors (f ⟨ev.source.position s, opened frames⟩) frames s ends) :
    ev.Mirrors (registers >>= f) frames s ends :=
  .step rfl le_rfl next

theorem Mirrors.ofOption_bind {f : β → Routine α} {ends : Except Fault α × List Glyph}
    {found : Option β} {b : β} (h : found = some b) (next : ev.Mirrors (f b) frames s ends) :
    ev.Mirrors (ofOption found >>= f) frames s ends := by
  subst h
  exact .step rfl le_rfl next

theorem opened_cons {p : Nonterminal} {cursor : Nat} (h : p ≠ .expression) :
    opened (⟨p, cursor⟩ :: frames) = opened frames := by
  simp [opened, h]

theorem isBoundary_place (left : s <:+ ev.source.glyphs) :
    IsBoundary (stripped ev.text) (ev.source.position s) := by
  obtain ⟨before, place⟩ := left
  have boundary := Source.isBoundary_position place.symm
  rwa [Source.chars_ofChars] at boundary

theorem sound_of_place (left : s <:+ ev.source.glyphs)
    (le : opened frames ≤ ev.limit) (p : Nonterminal) (edge : Edge) :
    ev.Sound ⟨p, edge, frames, ⟨ev.source.position s, opened frames⟩⟩ := by
  have boundary := isBoundary_place left
  exact ⟨boundary, boundary.le, rfl, le⟩

theorem Mirrors.recorded {x : Routine α} {ends : Except Fault α × List Glyph}
    (left : s <:+ ev.source.glyphs) (left' : ends.2 <:+ s) (le : opened frames ≤ ev.limit)
    (p : Nonterminal) (h : ev.Mirrors x frames s ends) :
    ev.Mirrors (recorded p x) frames s ends := by
  obtain ⟨visits, ran, steady⟩ := h
  have entry := Steady.singleton (sound_of_place left le p .entry)
  have exit := Steady.singleton (sound_of_place (left'.trans left) le p .exit)
  refine ⟨_, ?_, entry.append (steady.append exit)⟩
  simp [Routine.recorded, ran]

theorem Mirrors.within {x : Routine α} {y : Production α}
    (left : s <:+ ev.source.glyphs) (le : opened frames ≤ ev.limit) {p : Nonterminal}
    (other : p ≠ .expression)
    (h : ev.Mirrors x (⟨p, ev.source.position s⟩ :: frames) s (y.run s)) :
    ev.Mirrors (within p x) frames s (y.run s) := by
  refine .recorded left (y.suffix s) le p ?_
  unfold Mirrors at h
  rw [opened_cons other] at h
  exact h

theorem run_peek (left : s <:+ ev.source.glyphs) :
    ev.peek frames ⟨ev.source.position s, d⟩ =
      ⟨.ok (s.head?.map Glyph.char), ⟨ev.source.position s, d⟩, []⟩ := by
  obtain ⟨before, place⟩ := left
  rw [← Source.charAt?_position place.symm]
  rfl

theorem run_raise (left : s <:+ ev.source.glyphs) (cause : Nat → Cause) :
    (ev.raise cause : Routine α) frames ⟨ev.source.position s, d⟩ =
      ⟨.error (.fault ⟨cause (ev.source.position s), some (ev.source.span s)⟩),
        ⟨ev.source.position s, d⟩, []⟩ := by
  obtain ⟨before, place⟩ := left
  rw [← Source.spanAt_position place.symm]
  rfl

theorem Mirrors.peek_bind {f : Option Char → Routine α} {ends : Except Fault α × List Glyph}
    (left : s <:+ ev.source.glyphs)
    (next : ev.Mirrors (f (s.head?.map Glyph.char)) frames s ends) :
    ev.Mirrors (ev.peek >>= f) frames s ends :=
  .step (run_peek left) le_rfl next

theorem Mirrors.raise (left : s <:+ ev.source.glyphs) (cause : Nat → Cause) :
    ev.Mirrors (ev.raise cause : Routine α) frames s
      (.error ⟨cause (ev.source.position s), some (ev.source.span s)⟩, s) :=
  ⟨[], run_raise left cause, .nil le_rfl⟩

section Steps

variable (fits : ev.Fits)
include fits

theorem run_advance {run : List Glyph} (left : run ++ rest <:+ ev.source.glyphs) :
    ev.advance (bytes (run.map Glyph.char)) frames ⟨ev.source.position (run ++ rest), d⟩ =
      ⟨.ok (), ⟨ev.source.position rest, d⟩, []⟩ := by
  have upto : ev.source.position rest ≤ ev.source.size :=
    position_le ((List.suffix_append run rest).trans left) List.nil_suffix
  have size := fits.size_le
  obtain ⟨before, place⟩ := left
  have further : ev.source.position (run ++ rest) + bytes (run.map Glyph.char) =
      ev.source.position rest := Source.position_add_bytes place.symm
  have room : ev.source.position (run ++ rest) + bytes (run.map Glyph.char) ≤ ev.capacity := by
    omega
  rw [advance, if_pos room, ← further]

theorem run_advance_one {g : Glyph} (left : g :: rest <:+ ev.source.glyphs)
    (size : g.char.utf8Size = 1) :
    ev.advance 1 frames ⟨ev.source.position (g :: rest), d⟩ =
      ⟨.ok (), ⟨ev.source.position rest, d⟩, []⟩ := by
  have one : bytes ([g].map Glyph.char) = 1 := by simp [size]
  rw [← one]
  exact run_advance fits left

theorem Mirrors.advance_one {f : Unit → Routine α} {ends : Except Fault α × List Glyph} {g : Glyph}
    (left : g :: rest <:+ ev.source.glyphs) (size : g.char.utf8Size = 1)
    (next : ev.Mirrors (f ()) frames rest ends) :
    ev.Mirrors (ev.advance 1 >>= f) frames (g :: rest) ends :=
  .step (run_advance_one fits left size) (position_le left (List.suffix_cons g rest)) next

theorem Mirrors.expect_bind {f : Unit → Routine α} {k : Glyph → Production α}
    (left : s <:+ ev.source.glyphs)
    (closed : ∀ g rest, s = g :: rest → g.char = ')' →
      ev.Mirrors (f ()) frames rest ((k g).run rest)) :
    ev.Mirrors (ev.expect ')' >>= f) frames s ((closing ev.source >>= k).run s) := by
  by_cases here : s.head?.map Glyph.char = some ')'
  · obtain ⟨g, head, char⟩ := Option.map_eq_some_iff.mp here
    obtain ⟨rest, rfl⟩ := List.head?_eq_some_iff.mp head
    have ran : ev.expect ')' frames ⟨ev.source.position (g :: rest), opened frames⟩ =
        ⟨.ok (), ⟨ev.source.position rest, opened frames⟩, []⟩ := by
      have size : (')').utf8Size = 1 := by decide
      rw [expect, bind_of_ok (run_peek left), if_pos here, size,
        run_advance_one fits left (char ▸ size), List.nil_append]
    have scanned : (closing ev.source >>= k).run (g :: rest) = (k g).run rest := by
      rw [Scan.run_bind, closing, Scan.run_accept_true (by simp [char])]
    rw [scanned]
    exact .step ran (position_le left (List.suffix_cons g rest)) (closed g rest rfl char)
  · have ran : ev.expect ')' frames ⟨ev.source.position s, opened frames⟩ =
        ⟨.error (.fault ⟨.expectedCharacter ')' (s.head?.map Glyph.char) (ev.source.position s),
          some (ev.source.span s)⟩), ⟨ev.source.position s, opened frames⟩, []⟩ := by
      rw [expect, bind_of_ok (run_peek left), if_neg here, run_raise left,
        List.nil_append]
    have scanned : (closing ev.source >>= k).run s =
        (.error ⟨.expectedCharacter ')' (s.head?.map Glyph.char) (ev.source.position s),
          some (ev.source.span s)⟩, s) := by
      rw [Scan.run_bind, closing, Scan.run_accept_false]
      cases s with
      | nil => rfl
      | cons g rest => simpa using here
    rw [scanned]
    exact ⟨[], bind_of_error ran, .nil le_rfl⟩

end Steps

theorem length_lt_budget (left : s <:+ ev.source.glyphs) : s.length < ev.budget := by
  have all := length_le_bytes ev.source.chars
  rw [← Source.size_ofChars, Source.chars, List.length_map] at all
  exact Nat.lt_succ_of_le (left.length_le.trans all)

theorem mirrors_loop {join : Char → Option (α → Routine α)}
    {link? : Glyph → Option (α → Production α)} {n : Nat} (a : α) (left : s <:+ ev.source.glyphs)
    (lt : s.length < n)
    (links : ∀ g rest, g :: rest <:+ s → join g.char = none ∧ link? g = none ∨
      ∃ step link, join g.char = some step ∧ link? g = some link ∧
        ∀ a, ev.Mirrors (step a) frames (g :: rest) ((link a).run rest)) :
    ev.Mirrors (ev.loop join n a) frames s ((Scan.chain link? a).run s) := by
  -- there are more steps left than glyphs, and every turn takes one of each
  induction n generalizing a s with
  | zero => exact absurd lt (Nat.not_lt_zero _)
  | succ n ih =>
    rw [loop]
    refine .peek_bind left ?_
    cases s with
    | nil =>
      rw [Scan.run_chain_nil]
      exact .pure a
    | cons g rest =>
      rw [List.head?_cons, Option.map_some, Option.bind_some]
      obtain ⟨stop, stop'⟩ | ⟨step, link, joined, linked, mirrors⟩ := links g rest List.suffix_rfl
      · rw [stop, Scan.run_chain_stop stop']
        exact .pure a
      · rw [joined, Scan.run_chain_link linked]
        refine .bind (mirrors a) fun b rest' _ left' => ?_
        have further := left'.trans (List.suffix_cons g rest)
        refine ih b (further.trans left) ?_ fun g' more here => links g' more (here.trans further)
        exact Nat.lt_of_le_of_lt left'.length_le (Nat.lt_of_succ_lt_succ lt)

theorem utf8Size_symbol (op : Operator) : op.symbol.utf8Size = 1 := by
  cases op <;> decide

theorem mirrors_operations {kind : Operator → Bool}
    {step : Operator → Float → Routine Float} {operand : Production Float}
    {span : Glyph → Option Span} (a : Float) (left : s <:+ ev.source.glyphs)
    (steps : ∀ op b g rest, g :: rest <:+ s → g.char = op.symbol →
      ev.Mirrors (step op b) frames (g :: rest) ((operation operand (span g) op b).run rest)) :
    ev.Mirrors (ev.operations kind step a) frames s
      ((Scan.chain (Expression.operations kind operand span) a).run s) := by
  refine mirrors_loop a left (length_lt_budget left) fun g rest here => ?_
  cases found : operator? kind g with
  | none => exact .inl ⟨congrArg (Option.map step) found, by simp [Expression.operations, found]⟩
  | some op =>
    have char := (operator?_eq_some_iff.mp found).1
    refine .inr ⟨step op, operation operand (span g) op, congrArg (Option.map step) found, ?_, ?_⟩
    · simp only [Expression.operations, found, Option.map_some]
    · exact fun b => steps op b g rest here char

theorem run_minuses (fits : ev.Fits) {n k : Nat} (left : s <:+ ev.source.glyphs)
    (lt : s.length < n) :
    ev.loop (fun c => if c = '-' then some ev.minus else none) n k frames
        ⟨ev.source.position s, d⟩ =
      ⟨.ok (k + (s.takeWhile fun g => g.char == '-').length),
        ⟨ev.source.position (s.dropWhile fun g => g.char == '-'), d⟩, []⟩ := by
  induction n generalizing k s with
  | zero => exact absurd lt (Nat.not_lt_zero _)
  | succ n ih =>
    rw [loop, bind_of_ok (run_peek left)]
    cases s with
    | nil => rfl
    | cons g rest =>
      by_cases char : g.char = '-'
      · have taken : ev.minus k frames ⟨ev.source.position (g :: rest), d⟩ =
            ⟨.ok (k + 1), ⟨ev.source.position rest, d⟩, []⟩ :=
          bind_of_ok (run_advance_one fits left (char ▸ utf8Size_symbol .subtract))
        have further := (List.suffix_cons g rest).trans left
        simp only [List.head?_cons, Option.map_some, Option.bind_some, char, if_true,
          List.nil_append, bind_of_ok taken, ih further (Nat.lt_of_succ_lt_succ lt)]
        simp [char, Nat.add_assoc, Nat.add_comm]
      · simp [char, Pure.pure]

theorem run_digits_succ (fits : ev.Fits) {n start : Nat} (left : s <:+ ev.source.glyphs) :
    ev.digits start (n + 1) frames ⟨ev.source.position s, d⟩ =
      if (s.head?.any fun g => Literal.isNumeric g.char) &&
        (ev.source.position s == start || ev.source.isAdjacent (ev.source.position s))
      then ev.digits start n frames ⟨ev.source.position s.tail, d⟩
      else ⟨.ok (), ⟨ev.source.position s, d⟩, []⟩ := by
  have entered : registers frames ⟨ev.source.position s, d⟩ =
      ⟨.ok ⟨ev.source.position s, d⟩, ⟨ev.source.position s, d⟩, []⟩ := rfl
  obtain ⟨before, place⟩ := id left
  rw [digits, bind_of_ok entered]
  simp only [Source.charAt?_position place.symm, Option.any_map, List.nil_append]
  split_ifs with goesOn
  · cases s with
    | nil => simp at goesOn
    | cons g rest =>
      have numeric : Literal.isNumeric g.char = true := by simp_all
      rw [bind_of_ok (run_advance_one fits left (utf8Size_of_isNumeric numeric))]
      rfl
  · rfl

theorem run_digits_after (fits : ev.Fits) {g : Glyph} {n start : Nat}
    (left : g :: s <:+ ev.source.glyphs) (numeric : Literal.isNumeric g.char = true)
    (later : start < ev.source.position s) (lt : s.length < n) :
    ev.digits start n frames ⟨ev.source.position s, d⟩ =
      ⟨.ok (), ⟨ev.source.position (Literal.after g s).2, d⟩, []⟩ := by
  induction s generalizing g n with
  | nil =>
    obtain ⟨n, rfl⟩ := Nat.exists_eq_add_of_le' (Nat.succ_le_of_lt (Nat.zero_lt_of_lt lt))
    exact run_digits_succ fits List.nil_suffix
  | cons next s ih =>
    obtain ⟨n, rfl⟩ := Nat.exists_eq_add_of_le' (Nat.succ_le_of_lt (Nat.zero_lt_of_lt lt))
    have further := (List.suffix_cons g _).trans left
    obtain ⟨before, place⟩ := id left
    have adjacent := Source.isAdjacent_position place.symm (utf8Size_of_isNumeric numeric)
    have away : (ev.source.position (next :: s) == start) = false := by simpa using later.ne'
    rw [run_digits_succ fits further, List.head?_cons, Option.any_some, adjacent, away,
      Bool.false_or, Literal.after]
    split_ifs with goesOn
    · have numeric' : Literal.isNumeric next.char = true := by simp_all
      refine ih further numeric' ?_ (Nat.lt_of_succ_lt_succ lt)
      exact later.trans_le (position_le further (List.suffix_cons next s))
    · rfl

theorem run_digits (fits : ev.Fits) {n : Nat} (left : s <:+ ev.source.glyphs) (lt : s.length < n) :
    ev.digits (ev.source.position s) n frames ⟨ev.source.position s, d⟩ =
      ⟨.ok (), ⟨ev.source.position (Literal.split s).2, d⟩, []⟩ := by
  obtain ⟨n, rfl⟩ := Nat.exists_eq_add_of_le' (Nat.succ_le_of_lt (Nat.zero_lt_of_lt lt))
  rw [run_digits_succ fits left, BEq.rfl, Bool.true_or, Bool.and_true]
  cases s with
  | nil => rfl
  | cons g s =>
    rw [List.head?_cons, Option.any_some, Literal.split]
    split_ifs with numeric
    · refine run_digits_after fits left numeric ?_ (Nat.lt_of_succ_lt_succ lt)
      exact position_lt left
    · rfl

theorem spanBetween_split (left : s <:+ ev.source.glyphs) (something : (Literal.split s).1 ≠ []) :
    ev.source.spanBetween (ev.source.position s) (ev.source.position (Literal.split s).2) =
      Literal.span ev.source (Literal.split s).1 (Literal.split s).2 := by
  obtain ⟨before, place⟩ := left
  obtain ⟨hs, last, run⟩ := List.eq_nil_or_concat' (Literal.split s).1 |>.resolve_left something
  have parts := Literal.split_append s
  have numeric := isNumeric_split last (run ▸ List.mem_append_right hs List.mem_cons_self)
  rw [run, List.append_assoc, List.singleton_append] at parts
  rw [← parts] at place
  have between := Source.spanBetween_position place.symm (utf8Size_of_isNumeric numeric)
  rw [parts] at between
  rw [between, Literal.span, Literal.split_append, run, List.getLast?_concat]
  rfl

theorem run_number (fits : ev.Fits) (left : s <:+ ev.source.glyphs) :
    ev.number frames ⟨ev.source.position s, d⟩ =
      ⟨(Literal.value ev.source (Literal.split s).1 (Literal.split s).2).mapError .fault,
        ⟨ev.source.position (Literal.split s).2, d⟩,
        [⟨.number, .entry, frames, ⟨ev.source.position s, d⟩⟩,
          ⟨.number, .exit, frames, ⟨ev.source.position (Literal.split s).2, d⟩⟩]⟩ := by
  have entered (frames : List Frame) (r : Registers) : registers frames r = ⟨.ok r, r, []⟩ := rfl
  have further := Literal.split_suffix s
  have parts := Literal.split_append s
  simp only [number, within, recorded, framed, bind_of_ok (entered _ _),
    bind_of_ok (run_digits fits left (length_lt_budget left)), List.nil_append]
  by_cases nothing : (Literal.split s).1 = []
  · have still : (Literal.split s).2 = s := by rwa [nothing, List.nil_append] at parts
    simp only [still, if_true, bind_of_ok (run_peek left), run_raise left, List.nil_append,
      Literal.value, nothing]
    rfl
  · have moved : ev.source.position (Literal.split s).2 ≠ ev.source.position s := by
      intro same
      rw [Source.eq_of_position_eq left further same] at parts
      exact nothing (List.append_left_eq_self.mp parts)
    have sliced : slice? (ev.source.position s) (ev.source.position (Literal.split s).2)
        ev.source.chars = some ((Literal.split s).1.map Glyph.char) := by
      obtain ⟨before, place⟩ := left
      have place' := place
      rw [← parts] at place'
      have found := Source.slice?_position place'.symm
      rwa [parts] at found
    have found (r : Registers) (frames : List Frame) :
        ofOption (some ((Literal.split s).1.map Glyph.char)) frames r = ⟨.ok _, r, []⟩ := rfl
    simp only [if_neg moved, sliced, bind_of_ok (found _ _), List.nil_append, Literal.value,
      if_neg nothing, parts, spanBetween_split left nothing]
    cases Literal.decimal? ((Literal.split s).1.map Glyph.char) with
    | some decimal => rfl
    | none => rfl

theorem mirrors_number (fits : ev.Fits) (le : opened frames ≤ ev.limit)
    (left : s <:+ ev.source.glyphs) :
    ev.Mirrors ev.number frames s ((Literal.number ev.source).run s) := by
  have further := Literal.split_suffix s
  have entry := Steady.singleton (sound_of_place left le .number .entry)
  have exit := Steady.singleton (sound_of_place (further.trans left) le .number .exit)
  exact ⟨_, run_number fits left, entry.append ((Steady.nil (position_le left further)).append exit)⟩

/-- At so many open expressions, and with so few glyphs left, the routine reads as the production
does. -/
def Reads (ev : Evaluator) (d n : Nat) (x : Routine Float) (y : Production Float) : Prop :=
  ∀ frames s, opened frames = d → s <:+ ev.source.glyphs → s.length < n →
    ev.Mirrors x frames s (y.run s)

section Productions

variable {n : Nat} {x : Routine Float} {y : Production Float}

theorem isPrefixOf_eq_beginsWith (word : List Char) (s : List Glyph) :
    word.isPrefixOf (s.map Glyph.char) = beginsWith word s := by
  rw [Bool.eq_iff_iff, List.isPrefixOf_iff_prefix, beginsWith_iff]
  constructor
  · rintro ⟨more, chars⟩
    obtain ⟨taken, rest, rfl, word, -⟩ := List.map_eq_append_iff.mp chars.symm
    exact ⟨taken, rest, rfl, word⟩
  · rintro ⟨taken, rest, rfl, rfl⟩
    exact ⟨rest.map Glyph.char, List.map_append.symm⟩

theorem head?_eq_bracket (s : List Glyph) :
    s.head?.map Glyph.char = some '(' ↔ beginsWith ['('] s = true := by
  cases s with
  | nil => simp [beginsWith]
  | cons g s => simp [beginsWith]

theorem run_function_root {src : Source} {call : List Glyph} (chars : call.map Glyph.char = rootWord) :
    (Expression.function src y).run (call ++ rest) =
      (y >>= fun v => closing src >>= fun last => Scan.ofExcept (squareRoot v
        (some ⟨(src.span (call ++ rest)).start, last.offset + 1⟩))).run rest := by
  have word := beginsWith_iff.mpr ⟨call, rest, rfl, chars⟩
  have dropped : (call ++ rest).drop rootWord.length = rest := by
    rw [← chars, List.length_map, List.drop_left]
  change (if beginsWith rootWord (call ++ rest) then root src y
    else if beginsWith ['('] (call ++ rest) then group src y
    else Literal.number src).run (call ++ rest) = _
  rw [if_pos word]
  change (y >>= _).run ((call ++ rest).drop rootWord.length) = _
  rw [dropped]

theorem run_function_atom {src : Source} (no_root : beginsWith rootWord s = false) :
    (Expression.function src y).run s = (Expression.atom src y).run s := by
  change (if beginsWith rootWord s then root src y
    else if beginsWith ['('] s then group src y else Literal.number src).run s = _
  rw [no_root, if_neg Bool.false_ne_true]
  rfl

theorem reads_number (fits : ev.Fits) (le : d ≤ ev.limit) :
    ev.Reads d (n + 1) ev.number (Literal.number ev.source) :=
  fun _ _ depth left _ => mirrors_number fits (depth ▸ le) left

theorem reads_atom (fits : ev.Fits) (le : d ≤ ev.limit) (inside : ev.Reads d n x y) :
    ev.Reads d (n + 1) (ev.atom x) (Expression.atom ev.source y) := by
  intro frames s depth left lt
  refine .within left (depth ▸ le) (by simp) (.peek_bind left ?_)
  change ev.Mirrors _ _ s ((if beginsWith ['('] s then group ev.source y
    else Literal.number ev.source).run s)
  by_cases bracket : s.head?.map Glyph.char = some '('
  · rw [if_pos bracket, if_pos ((head?_eq_bracket s).mp bracket)]
    obtain ⟨g, head, char⟩ := Option.map_eq_some_iff.mp bracket
    obtain ⟨rest, rfl⟩ := List.head?_eq_some_iff.mp head
    have further := (List.suffix_cons g rest).trans left
    refine .advance_one fits left (by rw [char]; decide) ?_
    change ev.Mirrors _ _ rest ((y >>= fun v => closing ev.source >>= fun _ => pure v).run rest)
    refine .bind (inside _ rest ?_ further (Nat.lt_of_succ_lt_succ lt)) fun v rest' _ left' => ?_
    · rwa [opened_cons (by simp)]
    · exact .expect_bind fits (left'.trans further) fun g' rest'' _ _ => .pure v
  · rw [if_neg bracket, if_neg (mt (head?_eq_bracket s).mpr bracket)]
    refine reads_number fits le _ s ?_ left lt
    rwa [opened_cons (by simp)]

theorem reads_function (fits : ev.Fits) (le : d ≤ ev.limit) (inside : ev.Reads d n x y) :
    ev.Reads d (n + 1) (ev.function x) (Expression.function ev.source y) := by
  intro frames s depth left lt
  have depth' (p : Nat) : opened (⟨.function, p⟩ :: frames) = d := by rwa [opened_cons (by simp)]
  refine .within left (depth ▸ le) (by simp) (.registers_bind ?_)
  obtain ⟨before, place⟩ := id left
  refine .ofOption_bind (Source.splitAt?_position place.symm) ?_
  dsimp only
  rw [isPrefixOf_eq_beginsWith]
  cases word : beginsWith rootWord s with
  | false =>
    rw [if_neg Bool.false_ne_true, run_function_atom word]
    exact reads_atom fits le inside _ s (depth' _) left lt
  | true =>
    rw [if_pos rfl]
    obtain ⟨call, rest, rfl, chars⟩ := beginsWith_iff.mp word
    have further := (List.suffix_append call rest).trans left
    have length : call.length = rootWord.length := by rw [← chars, List.length_map]
    have shorter : rest.length < n := by
      rw [List.length_append, length] at lt
      have : rootWord.length = 5 := rfl
      omega
    refine .step (chars ▸ run_advance fits left) (position_le left (List.suffix_append call rest)) ?_
    rw [run_function_root chars]
    refine .bind (inside _ rest (depth' _) further shorter) fun v rest' _ left' => ?_
    refine .expect_bind fits (left'.trans further) fun g rest'' closes char => .registers_bind ?_
    rw [Scan.run_ofExcept]
    obtain ⟨inner, rfl⟩ := left'
    rw [closes, ← List.append_assoc call] at place
    have between := Source.spanBetween_position place.symm (by rw [char]; decide)
    rw [closes, ← List.append_assoc call, between]
    exact .ofExcept _

theorem reads_unary (fits : ev.Fits) (le : d ≤ ev.limit) (inside : ev.Reads d n x y) :
    ev.Reads d (n + 1) (ev.unary x) (Expression.unary ev.source y) := by
  intro frames s depth left lt
  refine .within left (depth ▸ le) (by simp) ?_
  have dropped := List.dropWhile_suffix (l := s) fun g => g.char == '-'
  refine .step (run_minuses fits left (length_lt_budget left)) (position_le left dropped) ?_
  refine .bind (reads_function fits le inside _ _ ?_ (dropped.trans left) ?_) fun v rest _ _ => ?_
  · rwa [opened_cons (by simp)]
  · exact Nat.lt_of_le_of_lt dropped.length_le lt
  · rw [Nat.zero_add]
    exact .pure _

theorem Reads.after_symbol {α : Type} {f : Float → Routine α} {k : Float → Production α}
    (operand : ev.Reads d n x y) (fits : ev.Fits) (depth : opened frames = d)
    (left : s <:+ ev.source.glyphs) (lt : s.length < n) {g : Glyph} (here : g :: rest <:+ s)
    (size : g.char.utf8Size = 1)
    (next : ∀ b rest, ev.Mirrors (f b) frames rest ((k b).run rest)) :
    ev.Mirrors (ev.advance 1 >>= fun _ => x >>= f) frames (g :: rest) ((y >>= k).run rest) := by
  have further := (List.suffix_cons g rest).trans here
  have shorter : rest.length < n := Nat.lt_of_le_of_lt further.length_le lt
  refine .advance_one fits (here.trans left) size ?_
  exact .bind (operand _ rest depth (further.trans left) shorter) fun b rest' _ _ => next b rest'

theorem reads_power (fits : ev.Fits) (le : d ≤ ev.limit) (inside : ev.Reads d n x y) :
    ev.Reads d (n + 1) (ev.power x) (Expression.power ev.source y) := by
  intro frames s depth left lt
  have depth' (p : Nat) : opened (⟨.power, p⟩ :: frames) = d := by rwa [opened_cons (by simp)]
  have operand := reads_unary fits le inside
  refine .within left (depth ▸ le) (by simp) ?_
  refine .bind (operand _ s (depth' _) left lt) fun v rest _ left' => ?_
  have further := left'.trans left
  have shorter : rest.length < n + 1 := Nat.lt_of_le_of_lt left'.length_le lt
  refine .bind (mirrors_loop _ further (length_lt_budget further) fun g rest' here => ?_)
    fun tower _ _ _ => .pure _
  by_cases caret : g.char = '^'
  · refine .inr ⟨_, _, if_pos caret, powers_eq_some_iff.mpr ⟨caret, rfl⟩, fun tower => ?_⟩
    exact operand.after_symbol fits (depth' _) further shorter here
      (caret ▸ utf8Size_symbol .power) fun e _ => .pure _
  · refine .inl ⟨if_neg caret, Option.eq_none_iff_forall_ne_some.mpr fun link linked => ?_⟩
    exact caret (powers_eq_some_iff.mp linked).1

theorem mirrors_apply (op : Operator) (a b : Float) (span : Option Span) (s : List Glyph) :
    ev.Mirrors (ofExcept (op.apply a b span)) frames s
      ((Scan.ofExcept (op.apply a b span) : Production Float).run s) := by
  rw [Scan.run_ofExcept]
  exact .ofExcept _

theorem reads_term (fits : ev.Fits) (le : d ≤ ev.limit) (inside : ev.Reads d n x y) :
    ev.Reads d (n + 1) (ev.term x) (Expression.term ev.source y) := by
  intro frames s depth left lt
  have depth' (p : Nat) : opened (⟨.term, p⟩ :: frames) = d := by rwa [opened_cons (by simp)]
  have operand := reads_power fits le inside
  refine .within left (depth ▸ le) (by simp) ?_
  refine .bind (operand _ s (depth' _) left lt) fun v rest _ left' => ?_
  have further := left'.trans left
  have shorter : rest.length < n + 1 := Nat.lt_of_le_of_lt left'.length_le lt
  rw [factors_eq]
  refine mirrors_operations v further fun op b g rest' here char => .registers_bind ?_
  obtain ⟨before, place⟩ := here.trans further
  rw [Source.spanAt_position place.symm]
  exact operand.after_symbol fits (depth' _) further shorter here (char ▸ utf8Size_symbol op)
    (mirrors_apply op b · _)

theorem reads_sum (fits : ev.Fits) (le : d ≤ ev.limit) (inside : ev.Reads d n x y) :
    ev.Reads d (n + 1) (ev.sum x) (Expression.sum ev.source y) := by
  intro frames s depth left lt
  have depth' (p : Nat) : opened (⟨.sum, p⟩ :: frames) = d := by rwa [opened_cons (by simp)]
  have operand := reads_term fits le inside
  refine .within left (depth ▸ le) (by simp) ?_
  refine .bind (operand _ s (depth' _) left lt) fun v rest _ left' => ?_
  have further := left'.trans left
  have shorter : rest.length < n + 1 := Nat.lt_of_le_of_lt left'.length_le lt
  rw [summands_eq]
  refine mirrors_operations v further fun op b g rest' here char => ?_
  exact operand.after_symbol fits (depth' _) further shorter here (char ▸ utf8Size_symbol op)
    (mirrors_apply op b · _)

end Productions

theorem reads_expression (fits : ev.Fits) {levels n : Nat} (lt : d + levels = ev.limit) :
    ev.Reads d n (ev.expression n) (Expression.expression ev.source ev.limit levels) := by
  -- there are more steps left than glyphs, and a bracket takes one of each
  induction n generalizing d levels with
  | zero => exact fun _ _ _ _ none_left => absurd none_left (Nat.not_lt_zero _)
  | succ n ih =>
    intro frames s depth left short
    refine .recorded left ((Expression.expression _ _ _).suffix s) (by omega) .expression
      (.registers_bind ?_)
    cases levels with
    | zero =>
      rw [if_pos (by dsimp only; omega)]
      exact .raise left _
    | succ levels =>
      have room : opened frames + 1 ≤ ev.capacity := by
        have := fits.limit_le
        omega
      have deeper : opened (⟨.expression, ev.source.position s⟩ :: frames) = opened frames + 1 := by
        simp [opened]
      have inner : ev.Reads (d + 1) n (ev.expression n)
          (Expression.expression ev.source ev.limit levels) := ih (by omega)
      obtain ⟨visits, ran, steady⟩ := reads_sum fits (by omega) inner _ s (depth ▸ deeper) left short
      rw [deeper] at ran
      have deepened : deepen ev.capacity frames ⟨ev.source.position s, opened frames⟩ =
          ⟨.ok (), ⟨ev.source.position s, opened frames + 1⟩, []⟩ := if_pos room
      have attempted : attempt (framed .expression (ev.sum (ev.expression n))) frames
          ⟨ev.source.position s, opened frames + 1⟩ = ⟨.ok _, _, visits⟩ :=
        congrArg (fun run => Run.mk (.ok run.result) run.registers run.visits) ran
      refine ⟨visits, ?_, steady⟩
      rw [if_neg (by dsimp only; omega), bind_of_ok deepened, bind_of_ok attempted]
      have risen (p : Nat) : rise frames ⟨p, opened frames + 1⟩ = ⟨.ok (), ⟨p, opened frames⟩, []⟩ :=
        rfl
      simp only [bind_of_ok (risen _), List.nil_append]
      rw [ofResult, List.append_nil]
      rfl

theorem mirrors_evaluate (fits : ev.Fits) (left : s <:+ ev.source.glyphs) :
    ev.Mirrors ev.evaluate [] s (ev.source.evaluateFrom ev.limit s) := by
  rw [evaluate, Source.evaluateFrom]
  by_cases nothing : ev.source.size = 0
  · rw [if_pos nothing, if_pos ((Source.glyphs_eq_nil_iff_size ev.text).mpr nothing)]
    exact .ofExcept (.error _)
  · rw [if_neg nothing, if_neg (mt (Source.glyphs_eq_nil_iff_size ev.text).mp nothing)]
    have read := reads_expression fits (Nat.zero_add ev.limit) [] s rfl left (length_lt_budget left)
    refine .bind read fun v rest _ left' => .peek_bind (left'.trans left) ?_
    cases rest with
    | nil => exact .pure v
    | cons g rest => exact .raise (left'.trans left) _

theorem evaluateFrom_suffix (src : Source) (limit : Nat) (s : List Glyph) :
    (src.evaluateFrom limit s).2 <:+ s := by
  rw [Source.evaluateFrom]
  split_ifs
  · exact List.suffix_rfl
  · exact (whole src limit).suffix s

/-- The runs from a position on: their ends and visits are in order, and no depth is left over. -/
structure Kept (ev : Evaluator) (first : Nat) (runs : List (Run Float)) : Prop where
  depth : ∀ run ∈ runs, run.registers.depth = 0
  sound : ∀ run ∈ runs, ∀ v ∈ run.visits, ev.Sound v
  boundary : ∀ run ∈ runs, IsBoundary (stripped ev.text) run.registers.cursor
  between : ∀ p ∈ runs.flatMap Run.cursors, first ≤ p
  ordered : (runs.flatMap Run.cursors).Pairwise (· ≤ ·)

theorem Kept.cons {first last : Nat} {result : Except Halt Float} {visits : List Visit}
    {runs : List (Run Float)} (boundary : IsBoundary (stripped ev.text) last)
    (steady : ev.Steady first last visits) (h : ev.Kept last runs) :
    ev.Kept first (⟨result, ⟨last, 0⟩, visits⟩ :: runs) := by
  have own : ∀ p ∈ visits.map (·.registers.cursor) ++ [last], first ≤ p ∧ p ≤ last := by
    simpa [or_imp, forall_and, steady.le] using steady.between
  refine ⟨?_, ?_, ?_, ?_, ?_⟩
  · simpa using h.depth
  · simpa using ⟨steady.sound, h.sound⟩
  · simpa using ⟨boundary, h.boundary⟩
  · rw [List.flatMap_cons]
    refine List.forall_mem_append.mpr ⟨fun p hp => (own p hp).1, fun p hp => ?_⟩
    exact steady.le.trans (h.between p hp)
  · rw [List.flatMap_cons, List.pairwise_append]
    refine ⟨?_, h.ordered, fun p hp q hq => (own p hp).2.trans (h.between q hq)⟩
    rw [Run.cursors, List.pairwise_append]
    refine ⟨steady.ordered, by simp, fun p hp q hq => ?_⟩
    rw [List.mem_singleton.mp hq]
    exact (own p (List.mem_append_left _ hp)).2

theorem runs_mirror (fits : ev.Fits) (n : Nat) (left : s <:+ ev.source.glyphs) :
    (ev.runs n ⟨ev.source.position s, 0⟩).map Run.result =
      (Session.answers n ⟨ev.source, ev.limit, s⟩).map (·.mapError Halt.fault) ∧
    ev.Kept (ev.source.position s) (ev.runs n ⟨ev.source.position s, 0⟩) := by
  -- the next run starts where this one stops, at the place of what it has left
  induction n generalizing s with
  | zero => exact ⟨rfl, by constructor <;> simp [runs]⟩
  | succ n ih =>
    obtain ⟨visits, ran, steady⟩ := mirrors_evaluate fits left
    have further := (evaluateFrom_suffix ev.source ev.limit s).trans left
    obtain ⟨results, kept⟩ := ih further
    change ev.evaluate [] ⟨ev.source.position s, 0⟩ = ⟨_, ⟨_, 0⟩, visits⟩ at ran
    rw [runs, ran]
    refine ⟨?_, .cons (isBoundary_place further) steady kept⟩
    rw [List.map_cons, results]
    rfl

end Evaluator

/-- Evaluating a text again and again, with one cursor and one depth. The results are the answers of
the session, so nothing ever breaks; at every entry and every exit the cursor stands between two
characters and has never gone back, and the depth counts the open expressions, within the limit; and
however an evaluation ends, the depth is zero after it. -/
theorem Evaluator.registers_are_kept (text : String) (limit capacity : Nat)
    (text_fits : bytes (stripped text.toList) ≤ capacity) (limit_fits : limit ≤ capacity)
    (n : Nat) :
    let ev : Evaluator := ⟨text.toList, limit, capacity⟩
    let runs := ev.runs n ⟨0, 0⟩
    runs.map Run.result =
      (Session.answers n (.start (.ofText text) limit)).map (·.mapError Halt.fault) ∧
    (∀ run ∈ runs, run.result ≠ .error .broken) ∧
    (∀ run ∈ runs, run.registers.depth = 0) ∧
    (∀ run ∈ runs, ∀ v ∈ run.visits, ev.Sound v) ∧
    (∀ run ∈ runs, IsBoundary (stripped text.toList) run.registers.cursor) ∧
    (runs.flatMap Run.cursors).Pairwise (· ≤ ·) := by
  intro ev runs
  have fits : ev.Fits := ⟨text_fits, limit_fits⟩
  have start : ev.source.position ev.source.glyphs = 0 := Source.position_eq (List.nil_append _).symm
  obtain ⟨results, kept⟩ := runs_mirror fits n List.suffix_rfl
  rw [start] at results kept
  refine ⟨results, fun run member broke => ?_, kept.depth, kept.sound, kept.boundary, kept.ordered⟩
  have answered := List.mem_map_of_mem (f := Run.result) member
  rw [broke, results] at answered
  obtain ⟨answer, -, same⟩ := List.mem_map.mp answered
  cases answer <;> cases same

theorem Evaluator.depth_after_missing_bracket :
    let runs := (⟨"2*(1".toList, 2, 9⟩ : Evaluator).runs 2 ⟨0, 0⟩
    bytes (stripped "2*(1".toList) ≤ 9 ∧ ∀ run ∈ runs, run.registers.depth = 0 := by
  have fits : bytes (stripped "2*(1".toList) ≤ 9 := by decide
  have kept := Evaluator.registers_are_kept "2*(1" 2 9 fits (by decide) 2
  exact ⟨fits, kept.2.2.1⟩

end Abacus.Expression
