import Mathlib
import Abacus.Proofs.Json.Numbers

/-!
The readers on the texts of the grammar. Blanks are nothing to a reader that looks for the next
character that is not blank. Any value of the grammar can be skipped, and what a reader makes of a
value, or that it fails, depends on the datum alone and not on how it is written or what follows it.
The cases are those of the grammar; one lemma says how items follow each other.
-/

namespace Abacus.Json

open Scan

/-- Another item or member follows, or the end of the list or object. -/
def Continues (rest : List Char) : Prop :=
  ∃ c s, rest = c :: s ∧ (c = ',' ∨ c = ']' ∨ c = '\x7d')

theorem Continues.closes {rest : List Char} (h : Continues rest) : Closes rest := by
  obtain ⟨c, s, rfl, rfl | rfl | rfl⟩ := h
  all_goals
    rintro c ⟨rfl⟩
    decide

theorem continues_end (s : List Char) : Continues ('\x7d' :: s) :=
  ⟨_, _, rfl, .inr (.inr rfl)⟩

theorem continues_bracket (s : List Char) : Continues (']' :: s) :=
  ⟨_, _, rfl, .inr (.inl rfl)⟩

theorem continues_comma (s : List Char) : Continues (',' :: s) :=
  ⟨_, _, rfl, .inl rfl⟩

namespace Reader

variable {α β : Type} {s rest blanks : List Char}

theorem solid_of_continues (h : Continues rest) : ∀ c ∈ rest.head?, isBlank c = false := by
  obtain ⟨c, s, rfl, rfl | rfl | rfl⟩ := h
  all_goals
    rintro c ⟨rfl⟩
    decide

theorem isBlank_of_mem (blank : IsBlank blanks) : ∀ c ∈ blanks, isBlank c = true := by
  intro c there
  have known := blank c there
  simp only [List.mem_cons, List.not_mem_nil, or_false] at known
  obtain rfl | rfl | rfl | rfl := known
  all_goals rfl

theorem dropWhile_blanks (blank : IsBlank blanks) (s : List Char) :
    (blanks ++ s).dropWhile isBlank = s.dropWhile isBlank :=
  List.dropWhile_append_of_pos (isBlank_of_mem blank)

theorem run_blanks_append (blank : IsBlank blanks) (solid : ∀ c ∈ rest.head?, isBlank c = false) :
    Reader.blanks.run (blanks ++ rest) = (.ok (), rest) := by
  change (Except.ok (), (blanks ++ rest).dropWhile isBlank) = _
  rw [dropWhile_blanks blank, dropWhile_solid solid]

def IgnoresBlanks (read : Reader α) : Prop :=
  ∀ s, read.run (s.dropWhile isBlank) = read.run s

namespace IgnoresBlanks

variable {read : Reader α}

theorem run_append (h : IgnoresBlanks read) (blank : IsBlank blanks) (s : List Char) :
    read.run (blanks ++ s) = read.run s := by
  rw [← h, dropWhile_blanks blank, h]

theorem bind (h : IgnoresBlanks read) (f : α → Reader β) : IgnoresBlanks (read >>= f) := by
  intro s
  rw [run_bind, run_bind, h]

end IgnoresBlanks

theorem ignoresBlanks_blanks : IgnoresBlanks Reader.blanks := by
  intro s
  change (Except.ok (), (s.dropWhile isBlank).dropWhile isBlank) = (_, s.dropWhile isBlank)
  rw [List.dropWhile_idempotent]

theorem ignoresBlanks_ahead : IgnoresBlanks ahead :=
  ignoresBlanks_blanks.bind _

theorem ignoresBlanks_nullable (read : Reader α) : IgnoresBlanks (nullable read) :=
  ignoresBlanks_ahead.bind _

theorem ignoresBlanks_member {σ : Type} (fields : List (Field σ)) (d : Draft σ) :
    IgnoresBlanks (member fields d) :=
  ignoresBlanks_blanks.bind _

theorem ignoresBlanks_skipNested (levels : Nat) : IgnoresBlanks (skipNested (levels + 1)) := by
  intro s
  rw [skipNested, run_delay, run_delay]
  exact ignoresBlanks_ahead.bind _ s

inductive Begins : Datum → Char → Prop
  | null : Begins .null 'n'
  | yes : Begins (.boolean true) 't'
  | no : Begins (.boolean false) 'f'
  | number {f c} : beginsNumeral c = true → Begins (.number f) c
  | string {l} : Begins (.string l) '"'
  | list {ds} : Begins (.list ds) '['
  | object {ms} : Begins (.object ms) '\x7b'

theorem Begins.of_n {d : Datum} (h : Begins d 'n') : d = .null := by
  cases h with
  | null => rfl
  | number begins => cases begins

theorem Begins.of_quote {d : Datum} (h : Begins d '"') : ∃ l, d = .string l := by
  cases h with
  | number begins => cases begins
  | @string l => exact ⟨l, rfl⟩

theorem Begins.of_bracket {d : Datum} (h : Begins d '[') : ∃ ds, d = .list ds := by
  cases h with
  | number begins => cases begins
  | @list ds => exact ⟨ds, rfl⟩

theorem Begins.of_brace {d : Datum} (h : Begins d '\x7b') : ∃ ms, d = .object ms := by
  cases h with
  | number begins => cases begins
  | @object ms => exact ⟨ms, rfl⟩

theorem Begins.of_beginsNumeral {d : Datum} {c : Char} (h : Begins d c)
    (begins : beginsNumeral c = true) : ∃ f, d = .number f := by
  cases h with
  | @number f c _ => exact ⟨f, rfl⟩
  | _ => cases begins

theorem begins_of_writes {d : Datum} {cs : List Char} (h : Writes (.value d) cs) :
    ∃ c s, cs = c :: s ∧ Begins d c := by
  cases h with
  | null => exact ⟨_, _, rfl, .null⟩
  | yes => exact ⟨_, _, rfl, .yes⟩
  | no => exact ⟨_, _, rfl, .no⟩
  | number f =>
    obtain ⟨c, s, first, begins⟩ := f.begins
    exact ⟨c, s, first, .number begins⟩
  | string l => exact ⟨_, _, rfl, .string⟩
  | emptyList => exact ⟨_, _, rfl, .list⟩
  | list => exact ⟨_, _, rfl, .list⟩
  | emptyObject => exact ⟨_, _, rfl, .object⟩
  | object => exact ⟨_, _, rfl, .object⟩

theorem Begins.solid {d : Datum} {c : Char} (h : Begins d c) :
    isBlank c = false ∧ c ≠ ']' ∧ c ≠ '\x7d' := by
  cases h with
  | number begins =>
    refine ⟨(solid_of_beginsNumeral begins).1, ?_, ?_⟩
    all_goals
      rintro rfl
      cases begins
  | _ => decide

/-- Behind blanks there is something that no list and no object ends with. -/
def Starts (s : List Char) : Prop :=
  ∃ blanks c more, s = blanks ++ c :: more ∧ IsBlank blanks ∧
    isBlank c = false ∧ c ≠ ']' ∧ c ≠ '\x7d'

theorem starts_cons {c : Char} (solid : isBlank c = false ∧ c ≠ ']' ∧ c ≠ '\x7d')
    (s : List Char) : Starts (c :: s) :=
  ⟨[], c, s, rfl, isBlank_nil, solid⟩

theorem Starts.append (h : Starts s) (rest : List Char) : Starts (s ++ rest) := by
  obtain ⟨blanks, c, more, rfl, parts⟩ := h
  exact ⟨blanks, c, more ++ rest, by simp, parts⟩

theorem Starts.behind (h : Starts s) (blank : IsBlank blanks) : Starts (blanks ++ s) := by
  obtain ⟨further, c, more, rfl, blank', parts⟩ := h
  refine ⟨blanks ++ further, c, more, by simp, ?_, parts⟩
  exact List.forall_mem_append.mpr ⟨blank, blank'⟩

theorem starts_of_writes {n : Node} {cs : List Char} (h : Writes n cs) : Starts cs := by
  have value {d : Datum} {cs : List Char} (h : Writes (.value d) cs) : Starts cs := by
    obtain ⟨c, s, rfl, begins⟩ := begins_of_writes h
    exact starts_cons begins.solid s
  induction h with
  | item blank h _ _ => exact (value h).append _ |>.behind blank
  | lastItem _ ih => exact ih
  | nextItem _ _ ih _ => exact ih.append _
  | member blank _ _ _ => exact (starts_cons (by decide) _).append _ |>.behind blank
  | lastMember _ ih => exact ih
  | nextMember _ _ ih _ => exact ih.append _
  | null => exact value .null
  | yes => exact value .yes
  | no => exact value .no
  | number f => exact value (.number f)
  | string l => exact value (.string l)
  | emptyList blank => exact value (.emptyList blank)
  | list h _ => exact value (.list h)
  | emptyObject blank => exact value (.emptyObject blank)
  | object h _ => exact value (.object h)

theorem Starts.ahead_bind (h : Starts s) : ∃ c more, isBlank c = false ∧ c ≠ ']' ∧ c ≠ '\x7d' ∧
    s.dropWhile isBlank = c :: more ∧
    ∀ {α : Type} (f : Option Char → Reader α),
      (ahead >>= f).run s = (f (some c)).run (c :: more) := by
  obtain ⟨blanks, c, more, rfl, blank, solid, bracket, brace⟩ := h
  refine ⟨c, more, solid, bracket, brace, ?_, fun f => ?_⟩
  · rw [dropWhile_blanks blank, List.dropWhile_cons_of_neg (by simp [solid])]
  · rw [(ignoresBlanks_ahead.bind f).run_append blank, run_ahead_bind solid]

theorem closes_blanks (blank : IsBlank blanks) (closes : Closes rest) :
    Closes (blanks ++ rest) := by
  cases blanks with
  | nil => exact closes
  | cons c blanks =>
    rintro c ⟨rfl⟩
    have known := blank c List.mem_cons_self
    simp only [List.mem_cons, List.not_mem_nil, or_false] at known
    obtain rfl | rfl | rfl | rfl := known
    all_goals decide

variable {close : Char} {item : α → Reader α} {a b : α}

def further (close : Char) (item : α → Reader α) (first : α) : Reader α :=
  chain (fun c => if c = ',' then some fun b => thenBlanks (item b) else none) first >>= fun last =>
    symbol close >>= fun _ => pure last

def itemsFrom (close : Char) (item : α → Reader α) (a : α) : Reader α :=
  thenBlanks (item a) >>= further close item

theorem run_further_end (other : close ≠ ',') :
    (further close item b).run (close :: rest) = (.ok b, rest) := by
  have stopped : (chain (fun c => if c = ',' then some fun b => thenBlanks (item b) else none)
      b).run (close :: rest) = (.ok b, close :: rest) :=
    run_chain_stop (by rw [if_neg other]) b rest
  rw [further, run_bind_of_ok stopped, run_bind_of_ok (run_symbol _ _), run_pure]

theorem run_further_comma : (further close item b).run (',' :: s) =
    (itemsFrom close item b).run s := by
  rw [further, run_bind, run_chain_link rfl, ← run_bind, bind_assoc]
  rfl

theorem itemsFrom_last (other : close ≠ ',') {cs : List Char} {r : Except Failure α}
    (read : ComesTo (thenBlanks (item a)) (cs ++ close :: rest) r (close :: rest)) :
    ComesTo (itemsFrom close item a) (cs ++ close :: rest) r rest := by
  have whole := read.bind fun b _ =>
    show ComesTo (further close item b) _ (pure b) rest from run_further_end other
  rwa [bind_pure] at whole

/-- What one item comes to is what the next one starts from. -/
theorem itemsFrom_next {cs : List Char} {r : Except Failure α} {g : α → Except Failure α}
    (read : ComesTo (thenBlanks (item a)) (cs ++ ',' :: s) r (',' :: s))
    (next : ∀ b, r = .ok b → ComesTo (itemsFrom close item b) s (g b) rest) :
    ComesTo (itemsFrom close item a) (cs ++ ',' :: s) (r >>= g) rest :=
  read.bind fun b eq => (next b eq).congr run_further_comma

theorem run_enclosed_starts (starts : Starts s) (ignores : IgnoresBlanks (item a))
    (bracket : close = ']' ∨ close = '\x7d') :
    (enclosed close item a).run s = (itemsFrom close item a).run s := by
  obtain ⟨c, more, solid, bracket', brace, dropped, here⟩ := starts.ahead_bind
  have other : c ≠ close := by
    obtain rfl | rfl := bracket
    · exact bracket'
    · exact brace
  have ignores' : IgnoresBlanks (itemsFrom close item a) := (ignores.bind _).bind _
  rw [enclosed, here]
  dsimp only
  rw [if_neg other, ← dropped, ← ignores']
  rfl

theorem run_enclosed_blanks (solid : isBlank close = false) (blank : IsBlank blanks) :
    (enclosed close item a).run (blanks ++ close :: rest) = (.ok a, rest) := by
  rw [enclosed, (ignoresBlanks_ahead.bind _).run_append blank, run_ahead_bind solid]
  dsimp only
  rw [if_pos rfl]
  rfl

theorem comesTo_thenBlanks {read : Reader α} {r : Except Failure α}
    (solid : ∀ c ∈ rest.head?, isBlank c = false) (blank : IsBlank blanks)
    (h : ComesTo read s r (blanks ++ rest)) :
    ComesTo (thenBlanks read) s r rest := by
  have whole := h.bind fun b _ =>
    show ComesTo (Reader.blanks >>= fun _ => pure b) _ (pure b) rest from
      run_bind_of_ok (run_blanks_append blank solid)
  rwa [bind_pure] at whole

theorem comesTo_between {read : Reader α} {r : Except Failure α}
    {before cs after : List Char} (ignores : IgnoresBlanks read) (blank : IsBlank before)
    (blank' : IsBlank after) (more : Continues rest)
    (value : ∀ rest, Closes rest → ComesTo read (cs ++ rest) r rest) :
    ComesTo (thenBlanks read) (before ++ (cs ++ after) ++ rest) r rest := by
  have ignores' : IgnoresBlanks (thenBlanks read) := ignores.bind _
  have whole := comesTo_thenBlanks (solid_of_continues more) blank'
    (value (after ++ rest) (closes_blanks blank' more.closes))
  rw [List.append_assoc, List.append_assoc]
  exact whole.congr (ignores'.run_append blank _)

theorem thenBlanks_bind (x : Reader α) (f : α → Reader β) :
    thenBlanks (x >>= f) = x >>= fun a => thenBlanks (f a) :=
  bind_assoc ..

theorem run_colon (blank : IsBlank blanks) (s : List Char) :
    colon.run (blanks ++ ':' :: s) = (.ok (), s) := by
  rw [colon, run_bind_of_ok (run_blanks_append blank (by rintro c ⟨rfl⟩; decide)), run_symbol]

section

variable {levels : Nat} {cs : List Char}

theorem takes_skip_word {word : String} {c : Char} {cs : List Char}
    (letters : word.toList = c :: cs) (chosen : ∀ s, (skipNested (levels + 1)).run (c :: s) =
      (Reader.word word.toList).run (c :: s)) :
    Takes (skipNested (levels + 1)) (c :: cs) () := by
  intro rest _
  rw [List.cons_append, chosen, letters]
  exact run_word (c :: cs) rest

theorem takes_skip_number (f : Figure) : Takes (skipNested (levels + 1)) f.text () := by
  intro rest closes
  obtain ⟨c, s, first, begins⟩ := f.begins
  have taken := takes_numeral .malformed f rest closes
  rw [first, List.cons_append] at taken ⊢
  rw [skipNested, run_delay, run_ahead_bind (solid_of_beginsNumeral begins).1]
  split
  case h_8 c' _ _ _ _ _ _ same =>
    obtain rfl := Option.some.inj same
    rw [if_pos begins]
    exact run_bind_of_ok taken
  case h_1 same => cases same
  all_goals
    next same =>
      obtain rfl := Option.some.inj same
      cases begins

theorem takes_skip_string (l : Literal) : Takes (skipNested (levels + 1)) l.text () := by
  intro rest _
  have skipped := run_skipCharacters l rest
  rw [Literal.text, List.cons_append] at skipped ⊢
  rw [skipNested, run_delay, run_ahead_bind rfl]
  exact skipped

theorem run_skip_list : (skipNested (levels + 1)).run ('[' :: s) =
    (enclosed ']' (fun _ => skipNested levels) ()).run s := by
  rw [skipNested, run_delay, run_ahead_bind rfl]
  rfl

def skipMember (levels : Nat) : Reader Unit := do
  Reader.blanks
  skipCharacters
  colon
  skipNested levels

theorem run_skipMember {before after : List Char} {l : Literal} (blank : IsBlank before)
    (blank' : IsBlank after) :
    (thenBlanks (skipMember levels)).run (before ++ (l.text ++ (after ++ ':' :: s))) =
      (thenBlanks (skipNested levels)).run s := by
  have solid : ∀ c ∈ (l.text ++ (after ++ ':' :: s)).head?, isBlank c = false := by
    rintro c ⟨rfl⟩
    decide
  rw [skipMember, thenBlanks_bind, run_bind_of_ok (run_blanks_append blank solid), thenBlanks_bind,
    run_bind_of_ok (run_skipCharacters l _), thenBlanks_bind, run_bind_of_ok (run_colon blank' s)]

theorem run_skip_object : (skipNested (levels + 1)).run ('\x7b' :: s) =
    (enclosed '\x7d' (fun _ => skipMember levels) ()).run s := by
  rw [skipNested, run_delay, run_ahead_bind rfl]
  rfl

end

/-- What is written of the node is skipped, if there are more levels than characters. -/
def IsSkipped (cs : List Char) : Node → Prop
  | .value _ => ∀ levels, cs.length ≤ levels → Takes (skipNested (levels + 1)) cs ()
  | .item _ => ∀ levels, cs.length ≤ levels → ∀ rest, Continues rest →
      (thenBlanks (skipNested (levels + 1))).run (cs ++ rest) = (.ok (), rest)
  | .items _ => ∀ levels, cs.length ≤ levels → ∀ rest,
      (itemsFrom ']' (fun _ => skipNested (levels + 1)) ()).run (cs ++ ']' :: rest) =
        (.ok (), rest)
  | .member _ => ∀ levels, cs.length ≤ levels → ∀ rest, Continues rest →
      (thenBlanks (skipMember (levels + 1))).run (cs ++ rest) = (.ok (), rest)
  | .members _ => ∀ levels, cs.length ≤ levels → ∀ rest,
      (itemsFrom '\x7d' (fun _ => skipMember (levels + 1)) ()).run (cs ++ '\x7d' :: rest) =
        (.ok (), rest)

theorem isSkipped_of_writes {n : Node} {cs : List Char} (h : Writes n cs) : IsSkipped cs n := by
  -- a bracket costs a level, and it is a character as well
  have below {cs : List Char} {close : Char} {levels : Nat}
      (enough : (cs ++ [close]).length < levels) :
      ∃ inner, levels = inner + 1 ∧ cs.length ≤ inner := by
    rw [List.length_append] at enough
    exact ⟨levels - 1, by omega, by omega⟩
  induction h with
  | null =>
    refine fun _ _ => takes_skip_word (by decide : "null".toList = _) fun s => ?_
    rw [skipNested, run_delay, run_ahead_bind rfl]
    rfl
  | yes =>
    refine fun _ _ => takes_skip_word (by decide : "true".toList = _) fun s => ?_
    rw [skipNested, run_delay, run_ahead_bind rfl]
    rfl
  | no =>
    refine fun _ _ => takes_skip_word (by decide : "false".toList = _) fun s => ?_
    rw [skipNested, run_delay, run_ahead_bind rfl]
    rfl
  | number f => exact fun _ _ => takes_skip_number f
  | string l => exact fun _ _ => takes_skip_string l
  | emptyList blank =>
    intro levels _ rest _
    rw [List.cons_append, List.append_assoc, List.singleton_append, run_skip_list]
    exact run_enclosed_blanks (by decide) blank
  | list h ih =>
    intro levels enough rest _
    obtain ⟨inner, rfl, fits⟩ := below enough
    have starts := (starts_of_writes h).append (']' :: rest)
    rw [List.cons_append, List.append_assoc, List.singleton_append, run_skip_list,
      run_enclosed_starts starts (ignoresBlanks_skipNested inner) (.inl rfl)]
    exact ih inner fits rest
  | emptyObject blank =>
    intro levels _ rest _
    rw [List.cons_append, List.append_assoc, List.singleton_append, run_skip_object]
    exact run_enclosed_blanks (by decide) blank
  | object h ih =>
    intro levels enough rest _
    obtain ⟨inner, rfl, fits⟩ := below enough
    have starts := (starts_of_writes h).append ('\x7d' :: rest)
    rw [List.cons_append, List.append_assoc, List.singleton_append, run_skip_object,
      run_enclosed_starts starts (ignoresBlanks_blanks.bind _) (.inr rfl)]
    exact ih inner fits rest
  | item blank _ blank' ih =>
    intro levels enough rest more
    rw [List.length_append, List.length_append] at enough
    exact comesTo_between (r := .ok ()) (ignoresBlanks_skipNested levels) blank blank' more
      (ih levels (by omega))
  | lastItem _ ih =>
    intro levels enough rest
    have taken := ih levels enough _ (continues_bracket rest)
    exact itemsFrom_last (r := .ok ()) (by decide) taken
  | @nextItem _ _ cs others _ _ ih ih' =>
    intro levels enough rest
    rw [List.length_append, List.length_cons] at enough
    have taken := ih levels (by omega) _ (continues_comma (others ++ ']' :: rest))
    rw [List.append_assoc, List.cons_append]
    exact itemsFrom_next (r := .ok ()) (g := .ok) taken fun _ _ => ih' levels (by omega) rest
  | member blank blank' _ ih =>
    intro levels enough rest more
    simp only [List.length_append, List.length_cons] at enough
    rw [List.append_assoc, List.append_assoc, List.append_assoc, List.cons_append,
      run_skipMember blank blank']
    exact ih levels (by omega) rest more
  | lastMember _ ih =>
    intro levels enough rest
    have taken := ih levels enough _ (continues_end rest)
    exact itemsFrom_last (r := .ok ()) (by decide) taken
  | @nextMember _ _ cs others _ _ ih ih' =>
    intro levels enough rest
    rw [List.length_append, List.length_cons] at enough
    have taken := ih levels (by omega) _ (continues_comma (others ++ '\x7d' :: rest))
    rw [List.append_assoc, List.cons_append]
    exact itemsFrom_next (r := .ok ()) (g := .ok) taken fun _ _ => ih' levels (by omega) rest

theorem run_skipValue {d : Datum} {cs : List Char} (h : Writes (.item d) cs)
    (more : Continues rest) : (thenBlanks skipValue).run (cs ++ rest) = (.ok (), rest) := by
  have enough : cs.length ≤ (cs ++ rest).length := by
    rw [List.length_append]
    omega
  exact isSkipped_of_writes h _ enough rest more

end Reader

/-- What the reader makes of the datum, however that is written. -/
def Settles {α : Type} (read : Reader α) (d : Datum) (result : Except Failure α) : Prop :=
  ∀ cs, Writes (.value d) cs → ∀ rest, Closes rest → ComesTo read (cs ++ rest) result rest

namespace Settles

variable {α β : Type} {read other : Reader α} {d : Datum} {result : Except Failure α}

theorem map (h : Settles read d result) (f : α → β) :
    Settles (do return f (← read)) d (result.map f) :=
  fun cs written rest closes => (h cs written rest closes).map f

theorem fail (f : Failure) : Settles (Scan.fail f : Reader α) d (.error f) :=
  fun _ _ _ _ => .of_error rfl

theorem of_begins (h : Settles other d result)
    (same : ∀ c s, Reader.Begins d c → read.run (c :: s) = other.run (c :: s)) :
    Settles read d result := by
  intro cs written rest closes
  have settled := h cs written rest closes
  obtain ⟨c, s, rfl, begins⟩ := Reader.begins_of_writes written
  exact settled.congr (same c (s ++ rest) begins)

theorem item (h : Settles read d result) (ignores : Reader.IgnoresBlanks read)
    {cs rest : List Char} (written : Writes (.item d) cs) (more : Continues rest) :
    ComesTo (Reader.thenBlanks read) (cs ++ rest) result rest := by
  cases written with
  | item blank written blank' =>
    exact Reader.comesTo_between ignores blank blank' more (h _ written)

end Settles

namespace Reader

variable {α : Type} {convert : Conversion} {c : Char} {rest : List Char}

theorem comesTo_double (convert : Conversion) (f : Figure) (closes : Closes rest) :
    ComesTo (Reader.double convert) (f.text ++ rest) (f.double convert) rest := by
  refine ComesTo.congr (run_bind_of_ok (takes_numeral .ended f rest closes)) ?_
  rw [Figure.double]
  cases convert.toFloat? f.numeral with
  | none => exact .of_error rfl
  | some x => exact rfl

theorem settles_literal {read : Reader α} {l : Literal} {result : Except Failure α}
    (h : ∀ rest, ComesTo read (l.text ++ rest) result rest) : Settles read (.string l) result := by
  intro cs written rest closes
  cases written
  exact h rest

theorem settles_figure {read : Reader α} {f : Figure} {result : Except Failure α}
    (h : ∀ rest, Closes rest → ComesTo read (f.text ++ rest) result rest) :
    Settles read (.number f) result := by
  intro cs written rest closes
  cases written
  exact h rest closes

theorem comesTo_word {word : String} {cs : List Char} (letters : word.toList = cs)
    {f : Unit → Reader α} {result : Except Failure α} (h : ComesTo (f ()) rest result rest) :
    ComesTo (Reader.word word.toList >>= f) (cs ++ rest) result rest :=
  h.congr (letters ▸ run_bind_of_ok (run_word word.toList rest))

theorem settles_null {read : Reader α} {f : Unit → Reader α} {result : Except Failure α}
    (h : ∀ rest, ComesTo (f ()) rest result rest)
    (same : ∀ s, read.run ('n' :: s) = (Reader.word "null".toList >>= f).run ('n' :: s)) :
    Settles read .null result := by
  intro cs written rest _
  cases written
  have letters : "null".toList = ['n', 'u', 'l', 'l'] := by decide
  exact (comesTo_word letters (h rest)).congr (same _)

theorem run_otherType_of_beginsNumeral (begins : beginsNumeral c = true) (s : List Char) :
    (otherType convert : Reader α).run (c :: s) =
      (Reader.double convert >>= fun _ => Scan.fail .mismatch).run (c :: s) := by
  refine (run_ahead_bind (solid_of_beginsNumeral begins).1).trans ?_
  split
  case h_8 same =>
    obtain rfl := Option.some.inj same
    rw [if_pos begins]
  case h_1 same => cases same
  all_goals
    next same =>
      obtain rfl := Option.some.inj same
      cases begins

theorem settles_otherType (d : Datum) :
    Settles (otherType convert : Reader α) d (d.otherType convert) := by
  have mismatch (s : List Char) :
      ComesTo (Scan.fail .mismatch : Reader α) s (.error .mismatch) s := .of_error rfl
  cases d with
  | null => exact settles_null mismatch fun s => run_ahead_bind rfl
  | boolean isTrue =>
    intro cs written rest _
    cases written with
    | yes =>
      have letters : "true".toList = ['t', 'r', 'u', 'e'] := by decide
      exact .congr (run_ahead_bind rfl) (comesTo_word letters (mismatch rest))
    | no =>
      have letters : "false".toList = ['f', 'a', 'l', 's', 'e'] := by decide
      exact .congr (run_ahead_bind rfl) (comesTo_word letters (mismatch rest))
  | number f =>
    refine settles_figure fun rest closes => ?_
    have read := (comesTo_double convert f closes).bind
      (g := fun _ => .error .mismatch) fun _ _ => mismatch rest
    obtain ⟨c, s, first, begins⟩ := f.begins
    rw [first, List.cons_append] at read ⊢
    exact read.congr (run_otherType_of_beginsNumeral begins _)
  | string l =>
    refine settles_literal fun rest => ?_
    have read := (comesTo_characters l rest).bind (g := fun _ => .error .mismatch)
      fun _ _ => mismatch rest
    have content : (Datum.string l).otherType convert =
        (orFail .malformed (Piece.chars? l.pieces) >>= fun _ => .error .mismatch :
          Except Failure α) := by
      rw [Datum.otherType, Literal.content]
      cases Piece.chars? l.pieces <;> rfl
    rw [content]
    rw [Literal.text, List.cons_append] at read ⊢
    exact read.congr (run_ahead_bind rfl)
  | list ds =>
    refine (Settles.fail .mismatch).of_begins fun c s begins => ?_
    cases begins
    exact run_ahead_bind rfl
  | object ms =>
    refine (Settles.fail .mismatch).of_begins fun c s begins => ?_
    cases begins
    exact run_ahead_bind rfl

theorem settles_text (d : Datum) : Settles (Reader.string convert) d (d.text convert) := by
  have other (h : ∀ l, d ≠ .string l) : Settles (Reader.string convert) d (d.otherType convert) := by
    refine (settles_otherType d).of_begins fun c s begins => ?_
    have quote : c ≠ '"' := by
      rintro rfl
      obtain ⟨l, rfl⟩ := begins.of_quote
      exact h l rfl
    rw [Reader.string, run_ahead_bind begins.solid.1, if_neg (by simpa using quote)]
  cases d with
  | string l =>
    refine settles_literal fun rest => ?_
    refine ((comesTo_characters l rest).map String.ofList).congr ?_
    rw [Literal.text, List.cons_append, Reader.string, run_ahead_bind rfl, if_pos rfl]
  | _ => exact other (by simp)

theorem settles_number (d : Datum) : Settles (Reader.number convert) d (d.double convert) := by
  have other (h : ∀ f, d ≠ .number f) : Settles (Reader.number convert) d (d.otherType convert) := by
    refine (settles_otherType d).of_begins fun c s begins => ?_
    have numeral : ¬ beginsNumeral c = true := fun numeral => by
      obtain ⟨f, rfl⟩ := begins.of_beginsNumeral numeral
      exact h f rfl
    rw [Reader.number, run_ahead_bind begins.solid.1, Option.any_some, if_neg numeral]
  cases d with
  | number f =>
    refine settles_figure fun rest closes => (comesTo_double convert f closes).congr ?_
    obtain ⟨c, s, first, begins⟩ := f.begins
    rw [first, List.cons_append, Reader.number,
      run_ahead_bind (solid_of_beginsNumeral begins).1, Option.any_some, if_pos begins]
  | _ => exact other (by simp)

/-- Null has been told apart before the value is read. -/
theorem settles_unlessNull {none_read read : Reader α} {d : Datum} {result : Except Failure α}
    (some_value : d ≠ .null) (h : Settles read d result) :
    Settles (do if (← ahead) = some 'n' then none_read else read) d result := by
  refine h.of_begins fun c s begins => ?_
  have other : c ≠ 'n' := by
    rintro rfl
    exact some_value begins.of_n
  rw [run_ahead_bind begins.solid.1, if_neg (by simpa using other)]

theorem settles_nothing (d : Datum) : Settles (Reader.null convert) d (d.nothing convert) := by
  cases d with
  | null =>
    refine settles_null (f := pure) (fun _ => rfl) fun s => ?_
    rw [bind_pure]
    exact run_ahead_bind rfl
  | _ => exact settles_unlessNull (by simp) (settles_otherType _)

theorem settles_optional {read : Reader α} {meaning : Datum → Except Failure α}
    (h : ∀ d, Settles read d (meaning d)) (d : Datum) :
    Settles (nullable read) d (d.optional meaning) := by
  cases d with
  | null =>
    refine settles_null (f := fun _ => pure none) (fun _ => ?_) fun s => run_ahead_bind rfl
    exact rfl
  | _ => exact settles_unlessNull (by simp) ((h _).map some)

end Reader

theorem read_of_run_error {α : Type} {reader : Reader α} {text : String} {f : Failure}
    {rest : List Char} (ran : reader.run text.toList = (.error f, rest)) :
    read reader text = .error f := by
  rw [read, run_bind_of_error ran]

theorem read_of_settles {α : Type} {reader : Reader α} {d : Datum} {result : Except Failure α}
    {text : String} (settles : Settles reader d result) (ignores : Reader.IgnoresBlanks reader)
    (written : IsText d text) : read reader text = result := by
  unfold IsText at written
  generalize characters : text.toList = cs at written
  cases written with
  | @item _ before cs after blank written blank' =>
    have nothing : Closes [] := fun c first => by cases first
    have closes : Closes (after ++ []) := Reader.closes_blanks blank' nothing
    rw [List.append_nil] at closes
    have ran := (settles cs written after closes).congr (ignores.run_append blank (cs ++ after))
    rw [← characters] at ran
    cases result with
    | ok a =>
      have ended : Reader.blanks.run (after ++ []) = (.ok (), []) :=
        Reader.run_blanks_append blank' (by simp)
      rw [List.append_nil] at ended
      rw [read, run_bind_of_ok ran, run_bind_of_ok ended]
      rfl
    | error f =>
      obtain ⟨left, failed⟩ := ran
      exact read_of_run_error failed

end Abacus.Json
