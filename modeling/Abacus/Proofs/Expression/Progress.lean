import Mathlib
import Abacus.Proofs.Expression.Lockstep
import Abacus.Proofs.Source.Coordinates

/-!
The descent goes forward, and that alone ends it: the limit of nesting is not needed. Whatever a
production does, the cursor is never set back, and with a value it is further on. What stands between
brackets begins behind an opening bracket that was not taken before; so there are never more
expressions inside of each other than there are such brackets, and one.
-/

namespace Abacus.Expression

open Text Routine

def levels (frames : List Frame) : List Nat :=
  (frames.filter (·.production == .expression)).map Frame.cursor

theorem length_levels (frames : List Frame) : (levels frames).length = opened frames := by
  rw [levels, List.length_map, opened, List.countP_eq_length_filter]

theorem levels_cons {production : Nonterminal} (other : production ≠ .expression) (cursor : Nat)
    (frames : List Frame) : levels (⟨production, cursor⟩ :: frames) = levels frames := by
  rw [levels, List.filter_cons_of_neg (by simpa using other), levels]

theorem levels_cons_expression (cursor : Nat) (frames : List Frame) :
    levels (⟨.expression, cursor⟩ :: frames) = cursor :: levels frames :=
  rfl

namespace Evaluator

variable (ev : Evaluator)

def Behind (cursor : Nat) : Prop :=
  0 < cursor ∧ ev.source.charAt? (cursor - 1) = some '('

/-- Open expressions begin further on than those around them, and each but the outermost behind a
bracket. -/
structure Deepens (frames : List Frame) (cursor : Nat) : Prop where
  ordered : (levels frames).Pairwise (· > ·)
  le : ∀ start ∈ levels frames, start ≤ cursor
  behind : ∀ start ∈ (levels frames).dropLast, ev.Behind start

/-- Such expressions have been opened inside of the frames that were there at first. -/
def Inside (base frames : List Frame) (cursor : Nat) : Prop :=
  ∃ inner, frames = inner ++ base ∧ ev.Deepens inner cursor

variable {ev} {base frames : List Frame} {cursor cursor' : Nat}

theorem Deepens.mono (h : ev.Deepens frames cursor) (le : cursor ≤ cursor') :
    ev.Deepens frames cursor' :=
  ⟨h.ordered, fun start mine => (h.le start mine).trans le, h.behind⟩

theorem Inside.mono (h : ev.Inside base frames cursor) (le : cursor ≤ cursor') :
    ev.Inside base frames cursor' := by
  obtain ⟨inner, rfl, deepens⟩ := h
  exact ⟨inner, rfl, deepens.mono le⟩

theorem Inside.enter (h : ev.Inside base frames cursor) {production : Nonterminal}
    (other : production ≠ .expression) (start : Nat) :
    ev.Inside base (⟨production, start⟩ :: frames) cursor := by
  obtain ⟨inner, rfl, deepens⟩ := h
  refine ⟨⟨production, start⟩ :: inner, rfl, ?_, ?_, ?_⟩
  · simpa only [levels_cons other] using deepens.ordered
  · simpa only [levels_cons other] using deepens.le
  · simpa only [levels_cons other] using deepens.behind

theorem Inside.deeper (h : ev.Inside base frames cursor) (lt : cursor < cursor')
    (behind : ev.Behind cursor') : ev.Inside base (⟨.expression, cursor'⟩ :: frames) cursor' := by
  obtain ⟨inner, rfl, deepens⟩ := h
  refine ⟨⟨.expression, cursor'⟩ :: inner, rfl, ?_, ?_, ?_⟩
  · rw [levels_cons_expression, List.pairwise_cons]
    exact ⟨fun start mine => (deepens.le start mine).trans_lt lt, deepens.ordered⟩
  · rw [levels_cons_expression, List.forall_mem_cons]
    exact ⟨le_rfl, fun start mine => ((deepens.le start mine).trans_lt lt).le⟩
  · rw [levels_cons_expression]
    cases outer : levels inner with
    | nil => simp
    | cons start more =>
      rw [List.dropLast_cons_of_ne_nil (by simp), ← outer, List.forall_mem_cons]
      exact ⟨behind, deepens.behind⟩

theorem Deepens.opened_le (h : ev.Deepens frames cursor) :
    opened frames ≤ 1 + ev.text.count '(' := by
  -- every level but the outermost has a bracket of its own
  have brackets : ((ev.source.glyphs.filter (·.char == '(')).map Glyph.position).length =
      ev.text.count '(' := by
    have chars : stripped ev.text = ev.source.glyphs.map Glyph.char := (Source.chars_ofChars _).symm
    rw [List.length_map, ← count_stripped (by decide), chars, List.count_eq_countP, List.countP_map,
      List.countP_eq_length_filter]
    rfl
  have taken : (levels frames).dropLast.map (· - 1) ⊆
      (ev.source.glyphs.filter (·.char == '(')).map Glyph.position := by
    intro place mine
    obtain ⟨start, level, rfl⟩ := List.mem_map.mp mine
    obtain ⟨g, found, char⟩ := Option.map_eq_some_iff.mp (h.behind start level).2
    have position : g.position = start - 1 := by simpa using List.find?_some found
    exact List.mem_map.mpr ⟨g, List.mem_filter.mpr ⟨List.mem_of_find?_eq_some found, by simp [char]⟩,
      position⟩
  have distinct : ((levels frames).dropLast.map (· - 1)).Nodup := by
    have ordered := h.ordered.sublist (List.dropLast_sublist _)
    refine List.pairwise_map.mpr (ordered.imp_of_mem fun mine mine' before => ?_)
    have := (h.behind _ mine).1
    have := (h.behind _ mine').1
    omega
  have short := (List.subperm_of_subset distinct taken).length_le
  rw [brackets, List.length_map, List.length_dropLast, length_levels] at short
  omega

/-- A visit is inside of the frames, and where an expression begins it can be opened. -/
structure Admits (ev : Evaluator) (base : List Frame) (v : Visit) : Prop where
  inside : ev.Inside base v.frames v.registers.cursor
  opens : v.production = .expression → v.edge = .entry →
    ev.Inside base (⟨.expression, v.registers.cursor⟩ :: v.frames) v.registers.cursor

/-- The cursor is not set back, and with a value it is at least as far as the target. -/
structure Moves {α : Type} (ev : Evaluator) (base : List Frame) (r : Registers) (target : Nat)
    (run : Run α) : Prop where
  forward : r.cursor ≤ run.registers.cursor
  reaches : ∀ a, run.result = .ok a → target ≤ run.registers.cursor
  admits : ∀ v ∈ run.visits, ev.Admits base v

namespace Moves

variable {α β : Type} {x : Routine α} {r : Registers} {target target' : Nat}

theorem still {result : Except Halt α} {r' : Registers} (same : x frames r = ⟨result, r', []⟩)
    (le : r.cursor ≤ r'.cursor) : ev.Moves base r r'.cursor (x frames r) := by
  rw [same]
  exact ⟨le, fun _ _ => le_rfl, by simp⟩

theorem failed {h : Halt} {r' : Registers} (same : x frames r = ⟨.error h, r', []⟩)
    (le : r.cursor ≤ r'.cursor) (target : Nat) : ev.Moves base r target (x frames r) := by
  rw [same]
  exact ⟨le, by simp, by simp⟩

theorem mono (h : ev.Moves base r target (x frames r)) (le : target' ≤ target) :
    ev.Moves base r target' (x frames r) :=
  ⟨h.forward, fun a ok => le.trans (h.reaches a ok), h.admits⟩

theorem bind {f : α → Routine β} (start : ev.Moves base r target (x frames r))
    (next : ∀ a r', r.cursor ≤ r'.cursor → target ≤ r'.cursor →
      ev.Moves base r' target' (f a frames r')) :
    ev.Moves base r target' ((x >>= f) frames r) := by
  obtain ⟨forward, reaches, admits⟩ := start
  cases ran : x frames r with
  | mk result r' visits =>
    rw [ran] at forward reaches admits
    cases result with
    | error h =>
      rw [bind_of_error ran]
      exact ⟨forward, fun _ impossible => by simp at impossible, admits⟩
    | ok a =>
      obtain ⟨forward', reaches', admits'⟩ := next a r' forward (reaches a rfl)
      rw [bind_of_ok ran]
      exact ⟨forward.trans forward', reaches', List.forall_mem_append.mpr ⟨admits, admits'⟩⟩

theorem step {f : α → Routine β} {a : α} {r' : Registers} (ran : x frames r = ⟨.ok a, r', []⟩)
    (le : r.cursor ≤ r'.cursor) (next : ev.Moves base r' target (f a frames r')) :
    ev.Moves base r target ((x >>= f) frames r) := by
  rw [bind_of_ok ran]
  exact ⟨le.trans next.forward, next.reaches, next.admits⟩

theorem advance (n : Nat) : ev.Moves base r (r.cursor + n) (ev.advance n frames r) := by
  by_cases room : r.cursor + n ≤ ev.capacity
  · have ran : ev.advance n frames r = ⟨.ok (), ⟨r.cursor + n, r.depth⟩, []⟩ := if_pos room
    exact .still ran (Nat.le_add_right _ _)
  · exact .failed (if_neg room) le_rfl _

theorem advance_bind {n : Nat} {f : Unit → Routine β}
    (next : ev.Moves base ⟨r.cursor + n, r.depth⟩ target (f () frames ⟨r.cursor + n, r.depth⟩)) :
    ev.Moves base r target ((ev.advance n >>= f) frames r) := by
  by_cases room : r.cursor + n ≤ ev.capacity
  · exact .step (if_pos room) (Nat.le_add_right _ _) next
  · have broken : ev.advance n frames r = ⟨.error .broken, r, []⟩ := if_neg room
    exact .failed (bind_of_error broken) le_rfl _

theorem peek_bind {f : Option Char → Routine β}
    (next : ev.Moves base r target (f (ev.source.charAt? r.cursor) frames r)) :
    ev.Moves base r target ((ev.peek >>= f) frames r) :=
  .step rfl le_rfl next

theorem expect (c : Char) : ev.Moves base r r.cursor (ev.expect c frames r) := by
  refine .peek_bind ?_
  split_ifs
  · exact (advance _).mono (Nat.le_add_right _ _)
  · exact .failed (x := ev.raise _) rfl le_rfl _

theorem within {production : Nonterminal} (other : production ≠ .expression)
    (inside : ev.Inside base frames r.cursor)
    (h : ev.Moves base r target (x (⟨production, r.cursor⟩ :: frames) r)) :
    ev.Moves base r target (within production x frames r) := by
  have entry : ev.Admits base ⟨production, .entry, frames, r⟩ :=
    ⟨inside, fun same => absurd same other⟩
  have exit (r' : Registers) (le : r.cursor ≤ r'.cursor) :
      ev.Admits base ⟨production, .exit, frames, r'⟩ :=
    ⟨inside.mono le, fun same => absurd same other⟩
  refine ⟨h.forward, h.reaches, List.forall_mem_cons.mpr ⟨entry, ?_⟩⟩
  exact List.forall_mem_append.mpr ⟨h.admits, List.forall_mem_singleton.mpr (exit _ h.forward)⟩

theorem loop {join : Char → Option (α → Routine α)} {n : Nat} (a : α)
    (steps : ∀ c step a r', r.cursor ≤ r'.cursor → join c = some step →
      ev.Moves base r' r'.cursor (step a frames r')) :
    ev.Moves base r r.cursor (ev.loop join n a frames r) := by
  induction n generalizing a r with
  | zero => exact .failed rfl le_rfl _
  | succ n ih =>
    refine .peek_bind ?_
    cases joined : (ev.source.charAt? r.cursor).bind join with
    | none => exact .still rfl le_rfl
    | some step =>
      obtain ⟨c, -, joins⟩ := Option.bind_eq_some_iff.mp joined
      refine .bind (steps c step a r le_rfl joins) fun b r' le _ => ?_
      exact (ih b fun c step a r'' le' => steps c step a r'' (le.trans le')).mono le

end Moves

def Progresses (ev : Evaluator) (base : List Frame) (x : Routine Float) : Prop :=
  ∀ frames r, ev.Inside base frames r.cursor →
    ev.Moves base r (r.cursor + 1) (x frames r)

def ProgressesInside (ev : Evaluator) (base : List Frame) (x : Routine Float) : Prop :=
  ∀ frames r, ev.Inside base frames r.cursor →
    ev.Inside base (⟨.expression, r.cursor⟩ :: frames) r.cursor →
    ev.Moves base r (r.cursor + 1) (x frames r)

section Productions

variable {nested : Routine Float} {r : Registers}

theorem moves_digits (start n : Nat) :
    ev.Moves base r r.cursor (ev.digits start n frames r) := by
  induction n generalizing r with
  | zero => exact .failed rfl le_rfl _
  | succ n ih =>
    refine .step rfl le_rfl ?_
    split_ifs
    · have further := ih (r := ⟨r.cursor + 1, r.depth⟩)
      exact .advance_bind (further.mono (Nat.le_succ _))
    · exact .still rfl le_rfl

theorem progresses_number : ev.Progresses base ev.number := by
  intro frames r inside
  refine .within (by simp) inside (.step rfl le_rfl (.bind (moves_digits _ _) fun _ r' le _ => ?_))
  refine .step rfl le_rfl ?_
  split_ifs with still
  · exact .peek_bind (.failed (x := ev.raise _) rfl le_rfl _)
  · have further : r.cursor + 1 ≤ r'.cursor := Nat.lt_of_le_of_ne le (Ne.symm still)
    cases slice? r.cursor r'.cursor ev.source.chars with
    | none => exact .failed rfl le_rfl _
    | some text =>
      refine .step rfl le_rfl ?_
      cases Literal.decimal? text with
      | none => exact .failed rfl le_rfl _
      | some d => exact (Moves.still (x := pure d.toFloat) rfl le_rfl).mono further

theorem moves_inside {α : Type} {f : Float → Routine α} (inner : ev.ProgressesInside base nested)
    (inside : ev.Inside base frames r.cursor)
    (opens : ev.Inside base (⟨.expression, r.cursor⟩ :: frames) r.cursor)
    (last : ∀ v r', ev.Moves base r' r'.cursor (f v frames r')) :
    ev.Moves base r (r.cursor + 1)
      ((nested >>= fun v => ev.expect ')' >>= fun _ => f v) frames r) := by
  refine .bind (inner frames r inside opens) fun v r' _ further => ?_
  exact .bind (.expect _) fun _ r'' le _ => (last v r'').mono (further.trans le)

theorem progresses_atom (inner : ev.ProgressesInside base nested) :
    ev.Progresses base (ev.atom nested) := by
  intro frames r inside
  have other : Nonterminal.atom ≠ .expression := by simp
  have entered := inside.enter other r.cursor
  refine .within other inside (.peek_bind ?_)
  split_ifs with bracket
  · have opens := entered.deeper (Nat.lt_succ_self r.cursor) ⟨Nat.succ_pos _, bracket⟩
    have behind := entered.mono (Nat.le_succ r.cursor)
    refine .advance_bind (.mono (moves_inside inner behind opens fun v r' => ?_) (Nat.le_succ _))
    exact .still rfl le_rfl
  · exact progresses_number _ r entered

theorem behind_root {before ahead : List Char}
    (found : splitAt? r.cursor ev.source.chars = some (before, ahead))
    (word : rootWord.isPrefixOf ahead = true) : ev.Behind (r.cursor + bytes rootWord) := by
  obtain ⟨chars, place⟩ := splitAt?_eq_some found
  obtain ⟨more, rfl⟩ := List.isPrefixOf_iff_prefix.mp word
  have parts : ev.source.chars = (before ++ ['s', 'q', 'r', 't']) ++ '(' :: more := by
    rw [chars, List.append_assoc]
    rfl
  obtain ⟨gs, hs, split, -, chars', position⟩ := Source.exists_split parts
  have bracket := Source.charAt?_position split
  have before_bracket : r.cursor + bytes rootWord - 1 = bytes (before ++ ['s', 'q', 'r', 't']) := by
    rw [place, bytes_append]
    rfl
  refine ⟨Nat.lt_add_left _ (by decide), ?_⟩
  rw [before_bracket, ← position, bracket, ← List.head?_map, chars', List.head?_cons]

theorem progresses_function (inner : ev.ProgressesInside base nested) :
    ev.Progresses base (ev.function nested) := by
  intro frames r inside
  have other : Nonterminal.function ≠ .expression := by simp
  have entered := inside.enter other r.cursor
  refine .within other inside (.step rfl le_rfl ?_)
  cases found : splitAt? r.cursor ev.source.chars with
  | none => exact .failed rfl le_rfl _
  | some parts =>
    obtain ⟨before, ahead⟩ := parts
    refine .step rfl le_rfl ?_
    dsimp only
    split_ifs with word
    · have lt : r.cursor < r.cursor + bytes rootWord := Nat.lt_add_of_pos_right (by decide)
      have opens := entered.deeper lt (behind_root found word)
      refine .advance_bind (.mono (moves_inside inner (entered.mono lt.le) opens fun v r' => ?_) ?_)
      · exact .step rfl le_rfl (.still rfl le_rfl)
      · exact Nat.succ_le_succ lt.le
    · exact progresses_atom inner _ r entered

theorem progresses_unary (inner : ev.ProgressesInside base nested) :
    ev.Progresses base (ev.unary nested) := by
  intro frames r inside
  have other : Nonterminal.unary ≠ .expression := by simp
  have entered := inside.enter other r.cursor
  refine .within other inside (.bind (.loop 0 ?_) fun minuses r' le _ => ?_)
  · intro c step n r' _ joined
    obtain ⟨-, rfl⟩ : c = '-' ∧ ev.minus = step := by simpa using joined
    exact .advance_bind ((Moves.still rfl le_rfl).mono (Nat.le_succ _))
  · refine .bind (progresses_function inner _ r' (entered.mono le)) fun v r'' _ further => ?_
    exact (Moves.still rfl le_rfl).mono ((Nat.succ_le_succ le).trans further)

theorem moves_after_symbol {α : Type} {operand : Routine Float} {f : Float → Routine α}
    (progresses : ev.Progresses base operand) (inside : ev.Inside base frames r.cursor)
    (last : ∀ v r', ev.Moves base r' r'.cursor (f v frames r')) :
    ev.Moves base r r.cursor ((ev.advance 1 >>= fun _ => operand >>= f) frames r) := by
  have entered := inside.mono (Nat.le_succ r.cursor)
  refine .advance_bind (.bind (progresses _ _ entered) fun v r' le _ => (last v r').mono ?_)
  exact (Nat.le_succ _).trans le

theorem moves_operations {kind : Operator → Bool} {step : Operator → Float → Routine Float}
    (a : Float) (steps : ∀ op b r', r.cursor ≤ r'.cursor →
      ev.Moves base r' r'.cursor (step op b frames r')) :
    ev.Moves base r r.cursor (ev.operations kind step a frames r) := by
  refine .loop a fun c link b r' le joined => ?_
  obtain ⟨op, -, rfl⟩ := Option.map_eq_some_iff.mp joined
  exact steps op b r' le

theorem progresses_power (inner : ev.ProgressesInside base nested) :
    ev.Progresses base (ev.power nested) := by
  intro frames r inside
  have operand := progresses_unary inner
  have other : Nonterminal.power ≠ .expression := by simp
  have entered := inside.enter other r.cursor
  refine .within other inside (.bind (operand _ r entered) fun first r' le further => ?_)
  refine .bind (.loop _ ?_) fun tower r'' le' _ => ?_
  · intro c step tower r'' le' joined
    obtain ⟨-, rfl⟩ : c = '^' ∧ ev.raised nested = step := by simpa using joined
    exact moves_after_symbol operand (entered.mono (le.trans le')) fun v r' => .still rfl le_rfl
  · exact (Moves.still rfl le_rfl).mono (further.trans le')

theorem progresses_term (inner : ev.ProgressesInside base nested) :
    ev.Progresses base (ev.term nested) := by
  intro frames r inside
  have operand := progresses_power inner
  have other : Nonterminal.term ≠ .expression := by simp
  have entered := inside.enter other r.cursor
  refine .within other inside (.bind (operand _ r entered) fun first r' le further => ?_)
  refine (moves_operations first fun op left r'' le' => .step rfl le_rfl ?_).mono further
  exact moves_after_symbol operand (entered.mono (le.trans le')) fun v r' => .still rfl le_rfl

theorem progresses_sum (inner : ev.ProgressesInside base nested) :
    ev.Progresses base (ev.sum nested) := by
  intro frames r inside
  have operand := progresses_term inner
  have other : Nonterminal.sum ≠ .expression := by simp
  have entered := inside.enter other r.cursor
  refine .within other inside (.bind (operand _ r entered) fun first r' le further => ?_)
  refine (moves_operations first fun op left r'' le' => ?_).mono further
  exact moves_after_symbol operand (entered.mono (le.trans le')) fun v r' => .still rfl le_rfl

theorem moves_level {x : Routine Float} {target : Nat}
    (h : ev.Moves base ⟨r.cursor, r.depth + 1⟩ target
      (x (⟨.expression, r.cursor⟩ :: frames) ⟨r.cursor, r.depth + 1⟩)) :
    ev.Moves base r target
      ((deepen ev.capacity >>= fun _ => attempt (framed .expression x) >>= fun result =>
        rise >>= fun _ => ofResult result) frames r) := by
  by_cases room : r.depth + 1 ≤ ev.capacity
  · refine .step (if_pos room) le_rfl ?_
    cases ran : x (⟨.expression, r.cursor⟩ :: frames) ⟨r.cursor, r.depth + 1⟩ with
    | mk result r' visits =>
      rw [ran] at h
      have attempted : attempt (framed .expression x) frames ⟨r.cursor, r.depth + 1⟩ =
          ⟨.ok result, r', visits⟩ :=
        congrArg (fun run => Run.mk (.ok run.result) run.registers run.visits) ran
      rw [bind_of_ok attempted]
      cases depth : r'.depth with
      | zero =>
        have broken : rise frames r' = ⟨.error .broken, r', []⟩ := by rw [rise, depth]
        rw [bind_of_error broken]
        exact ⟨h.forward, by simp, by simpa using h.admits⟩
      | succ n =>
        have risen : rise frames r' = ⟨.ok (), ⟨r'.cursor, n⟩, []⟩ := by rw [rise, depth]
        rw [bind_of_ok risen]
        exact ⟨h.forward, h.reaches, by simpa [ofResult] using h.admits⟩
  · exact .failed (bind_of_error (if_neg room)) le_rfl _

end Productions

theorem progresses_expression (ev : Evaluator) (base : List Frame) (n : Nat) :
    ev.ProgressesInside base (ev.expression n) := by
  -- by induction on the steps there may be at most; that they are enough is another matter
  induction n with
  | zero => exact fun _ _ _ _ => .failed rfl le_rfl _
  | succ n ih =>
    intro frames r inside opens
    have moves : ev.Moves base r (r.cursor + 1) ((registers >>= fun found =>
        if ev.limit ≤ found.depth then ev.raise fun _ => .tooDeeplyNested ev.limit
        else deepen ev.capacity >>= fun _ =>
          attempt (framed .expression (ev.sum (ev.expression n))) >>= fun result =>
            rise >>= fun _ => ofResult result) frames r) := by
      refine .step rfl le_rfl ?_
      split_ifs
      · exact .failed (x := ev.raise _) rfl le_rfl _
      · exact moves_level (progresses_sum ih _ ⟨r.cursor, r.depth + 1⟩ opens)
    have entry : ev.Admits base ⟨.expression, .entry, frames, r⟩ := ⟨inside, fun _ _ => opens⟩
    have exit (r' : Registers) (le : r.cursor ≤ r'.cursor) :
        ev.Admits base ⟨.expression, .exit, frames, r'⟩ :=
      ⟨inside.mono le, fun _ impossible => by simp at impossible⟩
    refine ⟨moves.forward, moves.reaches, List.forall_mem_cons.mpr ⟨entry, ?_⟩⟩
    exact List.forall_mem_append.mpr
      ⟨moves.admits, List.forall_mem_singleton.mpr (exit _ moves.forward)⟩

/-- The loops of the productions: for each, what a character has it do once more. -/
inductive LoopOf (ev : Evaluator) :
    Nonterminal → (α : Type) → (Char → Option (α → Routine α)) → Prop
  | minuses : LoopOf ev .unary Nat fun c => if c = '-' then some ev.minus else none
  | powers : LoopOf ev .power Tower fun c =>
      if c = '^' then some (ev.raised (ev.expression ev.budget)) else none
  | factors : LoopOf ev .term Float fun c =>
      ((Operator.ofSymbol? c).filter Operator.isMultiplicative).map
        (ev.scaled (ev.expression ev.budget))
  | summands : LoopOf ev .sum Float fun c =>
      ((Operator.ofSymbol? c).filter Operator.isAdditive).map (ev.added (ev.expression ev.budget))

theorem Inside.refl (ev : Evaluator) (frames : List Frame) (cursor : Nat) :
    ev.Inside frames frames cursor :=
  ⟨[], rfl, by simp [levels], by simp [levels], by simp [levels]⟩

theorem lt_after_symbol {α : Type} {operand : Routine Float} {f : Float → Routine α} {r : Registers}
    (room : r.cursor + 1 ≤ ev.capacity) (progresses : ev.Progresses frames operand)
    (last : ∀ v r', ev.Moves frames r' r'.cursor (f v frames r')) :
    r.cursor < ((ev.advance 1 >>= fun _ => operand >>= f) frames r).registers.cursor := by
  have inside := Inside.refl ev frames (r.cursor + 1)
  have moves : ev.Moves frames ⟨r.cursor + 1, r.depth⟩ 0
      ((operand >>= f) frames ⟨r.cursor + 1, r.depth⟩) :=
    .bind (progresses _ _ inside) fun v r' _ _ => (last v r').mono (Nat.zero_le _)
  rw [bind_of_ok (if_pos room)]
  exact moves.forward

theorem LoopOf.round_lt (fits : ev.Fits) {production : Nonterminal} {α : Type}
    {join : Char → Option (α → Routine α)} (h : ev.LoopOf production α join) {c : Char}
    {step : α → Routine α} {r : Registers} (a : α) (frames : List Frame)
    (seen : ev.source.charAt? r.cursor = some c) (joined : join c = some step) :
    r.cursor < (step a frames r).registers.cursor := by
  have inner := progresses_expression ev frames ev.budget
  have room : r.cursor + 1 ≤ ev.capacity := by
    by_contra full
    have past : ev.source.size ≤ r.cursor :=
      fits.size_le.trans (Nat.le_of_lt_succ (Nat.not_le.mp full))
    rw [Source.charAt?_of_size_le past] at seen
    cases seen
  cases h with
  | minuses =>
    obtain ⟨-, rfl⟩ : c = '-' ∧ ev.minus = step := by simpa using joined
    rw [minus, bind_of_ok (if_pos room)]
    exact Nat.lt_succ_self r.cursor
  | powers =>
    obtain ⟨-, rfl⟩ : c = '^' ∧ ev.raised _ = step := by simpa using joined
    exact lt_after_symbol room (progresses_unary inner) fun v r' => .still rfl le_rfl
  | factors =>
    obtain ⟨op, -, rfl⟩ := Option.map_eq_some_iff.mp joined
    exact lt_after_symbol room (progresses_power inner) fun v r' => .still rfl le_rfl
  | summands =>
    obtain ⟨op, -, rfl⟩ := Option.map_eq_some_iff.mp joined
    exact lt_after_symbol room (progresses_term inner) fun v r' => .still rfl le_rfl

def routine (ev : Evaluator) : Nonterminal → Routine Float
  | .expression => ev.expression ev.budget
  | .sum => ev.sum (ev.expression ev.budget)
  | .term => ev.term (ev.expression ev.budget)
  | .power => ev.power (ev.expression ev.budget)
  | .unary => ev.unary (ev.expression ev.budget)
  | .function => ev.function (ev.expression ev.budget)
  | .atom => ev.atom (ev.expression ev.budget)
  | .number => ev.number

def production (ev : Evaluator) (levels : Nat) : Nonterminal → Production Float
  | .expression => Expression.expression ev.source ev.limit levels
  | .sum => Expression.sum ev.source (Expression.expression ev.source ev.limit levels)
  | .term => Expression.term ev.source (Expression.expression ev.source ev.limit levels)
  | .power => Expression.power ev.source (Expression.expression ev.source ev.limit levels)
  | .unary => Expression.unary ev.source (Expression.expression ev.source ev.limit levels)
  | .function => Expression.function ev.source (Expression.expression ev.source ev.limit levels)
  | .atom => Expression.atom ev.source (Expression.expression ev.source ev.limit levels)
  | .number => Literal.number ev.source

theorem mirrors_routine (fits : ev.Fits) {s : List Glyph} {levels : Nat}
    (le : opened frames + levels = ev.limit) (left : s <:+ ev.source.glyphs) (p : Nonterminal) :
    ev.Mirrors (ev.routine p) frames s ((ev.production levels p).run s) := by
  have inner := reads_expression fits (n := ev.budget) le
  have within : opened frames ≤ ev.limit := by omega
  have short := length_lt_budget left
  have shorter : s.length < ev.budget + 1 := Nat.lt_succ_of_lt short
  cases p with
  | expression => exact inner frames s rfl left short
  | sum => exact reads_sum fits within inner frames s rfl left shorter
  | term => exact reads_term fits within inner frames s rfl left shorter
  | power => exact reads_power fits within inner frames s rfl left shorter
  | unary => exact reads_unary fits within inner frames s rfl left shorter
  | function => exact reads_function fits within inner frames s rfl left shorter
  | atom => exact reads_atom fits within inner frames s rfl left shorter
  | number => exact mirrors_number fits within left

theorem moves_routine (frames : List Frame) (r : Registers) (p : Nonterminal) :
    ev.Moves frames r (r.cursor + 1) (ev.routine p frames r) := by
  have inner := progresses_expression ev frames ev.budget
  have inside := Inside.refl ev frames r.cursor
  cases p with
  | expression =>
    refine inner frames r inside ⟨[⟨.expression, r.cursor⟩], rfl, ?_, ?_, ?_⟩
    · simp [levels]
    · simp [levels]
    · simp [levels]
  | sum => exact progresses_sum inner frames r inside
  | term => exact progresses_term inner frames r inside
  | power => exact progresses_power inner frames r inside
  | unary => exact progresses_unary inner frames r inside
  | function => exact progresses_function inner frames r inside
  | atom => exact progresses_atom inner frames r inside
  | number => exact progresses_number frames r inside

theorem Inside.deepens (inner : List Frame) (h : ev.Inside base (inner ++ base) cursor) :
    ev.Deepens inner cursor := by
  obtain ⟨inner', same, deepens⟩ := h
  rwa [List.append_cancel_right same]

theorem Deepens.of_entry {inner : List Frame}
    (h : ev.Deepens (⟨.expression, cursor⟩ :: inner) cursor) :
    (∀ f ∈ inner, f.production = .expression → f.cursor < cursor) ∧
      opened inner ≤ ev.text.count '(' := by
  constructor
  · intro f mine level
    have ordered := h.ordered
    rw [levels_cons_expression, List.pairwise_cons] at ordered
    refine ordered.1 _ (List.mem_map_of_mem (List.mem_filter.mpr ⟨mine, ?_⟩))
    simp [level]
  · have most := h.opened_le
    rw [← length_levels, levels_cons_expression, List.length_cons, length_levels] at most
    omega

end Evaluator

/-- The descent ends by itself. From any place between two characters and under any limit, every
production returns, and nothing breaks; it has a value only with the cursor further on, and so does
every round of its loops go on, however it ends. An expression that is entered inside of another one,
be it refused there or not, begins further on than that one; so there are never more open than the
text has opening brackets, and one, nor more than the limit allows. -/
theorem Evaluator.descent_ends (text : String) (limit capacity p : Nat) (frames : List Frame)
    (text_fits : bytes (stripped text.toList) ≤ capacity) (limit_fits : limit ≤ capacity)
    (room : opened frames ≤ limit) (boundary : IsBoundary (stripped text.toList) p)
    (production : Nonterminal) :
    let ev : Evaluator := ⟨text.toList, limit, capacity⟩
    let ran := ev.routine production frames ⟨p, opened frames⟩
    ran.result ≠ .error .broken ∧
    (∀ v, ran.result = .ok v → p < ran.registers.cursor) ∧
    (∀ α join, ev.LoopOf production α join → ∀ c step a frames r,
      ev.source.charAt? r.cursor = some c → join c = some step →
        r.cursor < (step a frames r).registers.cursor) ∧
    (∀ v ∈ ran.visits, ∃ inner, v.frames = inner ++ frames ∧
      (v.production = .expression → v.edge = .entry →
        (∀ f ∈ inner, f.production = .expression → f.cursor < v.registers.cursor) ∧
        opened inner ≤ text.toList.count '(') ∧
      opened v.frames ≤ min limit (opened frames + (1 + text.toList.count '('))) ∧
    ∀ s, s <:+ ev.source.glyphs → ev.source.position s = p →
      ran.result = ((ev.production (limit - opened frames) production).run s).1.mapError .fault ∧
      ran.registers.cursor =
        ev.source.position ((ev.production (limit - opened frames) production).run s).2 := by
  intro ev ran
  have fits : ev.Fits := ⟨text_fits, limit_fits⟩
  have levels : opened frames + (limit - opened frames) = ev.limit := Nat.add_sub_of_le room
  have moves : ev.Moves frames ⟨p, opened frames⟩ (p + 1) ran :=
    moves_routine frames ⟨p, opened frames⟩ production
  have mirrored (s : List Glyph) (left : s <:+ ev.source.glyphs) (here : ev.source.position s = p) :
      ran.result = ((ev.production (limit - opened frames) production).run s).1.mapError .fault ∧
        ran.registers.cursor =
          ev.source.position ((ev.production (limit - opened frames) production).run s).2 ∧
        ∀ v ∈ ran.visits, ev.Sound v := by
    subst here
    obtain ⟨visits, same, steady⟩ := mirrors_routine fits levels left production
    have same : ran = _ := same
    rw [same]
    exact ⟨rfl, rfl, steady.sound⟩
  -- a boundary is the place of some glyphs, and from there the routine mirrors the production
  obtain ⟨xs, ys, chars, place⟩ := boundary
  obtain ⟨gs, s, split, -, -, position⟩ :=
    Source.exists_split ((Source.chars_ofChars text.toList).trans chars)
  obtain ⟨result, -, sound⟩ := mirrored s ⟨gs, split.symm⟩ (position.trans place.symm)
  refine ⟨?_, moves.reaches, fun α join loop c step a frames r => loop.round_lt fits a frames, ?_,
    fun s left here => ⟨(mirrored s left here).1, (mirrored s left here).2.1⟩⟩
  · rw [result]
    cases ((ev.production (limit - opened frames) production).run s).1 <;> simp [Except.mapError]
  · intro v visited
    obtain ⟨inside, opens⟩ := moves.admits v visited
    obtain ⟨inner, around, deepens⟩ := inside
    refine ⟨inner, around, fun expression entry => ?_, le_min ?_ ?_⟩
    · have further := opens expression entry
      rw [around] at further
      exact Deepens.of_entry (Inside.deepens (_ :: inner) further)
    · rw [← (sound v visited).depth]
      exact (sound v visited).depth_le
    · have most : opened inner ≤ 1 + text.toList.count '(' := deepens.opened_le
      rw [around, opened, List.countP_append, ← opened, ← opened]
      omega

/-- Two brackets that are not closed, at the largest limit there is, are three levels at most; and
where one level is all that is allowed, the expression inside of a root is entered but never open. -/
theorem Evaluator.descent_ends_brackets_and_root :
    (let ran := Evaluator.routine ⟨"((1".toList, 99, 99⟩ .expression [] ⟨0, 0⟩
    ran.result ≠ .error .broken ∧ ∀ v ∈ ran.visits, opened v.frames ≤ 3) ∧
    let ran := Evaluator.routine ⟨"2*sqrt(4)".toList, 1, 99⟩ .function [⟨.expression, 0⟩] ⟨2, 1⟩
    ran.result ≠ .error .broken ∧ ∀ v ∈ ran.visits, opened v.frames ≤ 1 := by
  have start : IsBoundary (stripped "((1".toList) 0 := ⟨[], _, rfl, rfl⟩
  have further : IsBoundary (stripped "2*sqrt(4)".toList) 2 :=
    ⟨"2*".toList, "sqrt(4)".toList, by decide, by decide⟩
  have brackets := descent_ends "((1" 99 99 0 [] (by decide) (by decide) (by decide) start
    .expression
  have root := descent_ends "2*sqrt(4)" 1 99 2 [⟨.expression, 0⟩] (by decide) (by decide)
    (by decide) further .function
  refine ⟨⟨brackets.1, fun v visited => ?_⟩, root.1, fun v visited => ?_⟩
  · obtain ⟨inner, -, -, most⟩ := brackets.2.2.2.1 v visited
    exact most.trans (by decide)
  · obtain ⟨inner, -, -, most⟩ := root.2.2.2.1 v visited
    exact most.trans (by decide)

end Abacus.Expression
