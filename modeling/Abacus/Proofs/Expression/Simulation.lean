import Mathlib
import Abacus.Proofs.Expression.Descent
import Abacus.Proofs.Expression.Evaluation

/-!
Reading and calculating in one pass is the same as reading first and calculating then. A production
is compared with its descent from any stack: whenever the instructions emitted so far run through,
the production has made the same moves and has the value on top of the stack; and when one of them
fails, the production has failed with the same fault.
-/

namespace Abacus.Expression

open Scan

namespace Program

@[simp] theorem andThen_stack (values : List Float) (more : List Float → Outcome) :
    (Outcome.stack values).andThen more = more values := rfl

@[simp] theorem andThen_fault (f : Fault) (more : List Float → Outcome) :
    (Outcome.fault f).andThen more = .fault f := rfl

@[simp] theorem andThen_stuck (more : List Float → Outcome) :
    Outcome.stuck.andThen more = .stuck := rfl

@[simp] theorem execute_nil (stack : List Float) : execute [] stack = .stack stack := rfl

theorem execute_cons (i : Instruction) (p : Program) (stack : List Float) :
    execute (i :: p) stack = (step i stack).andThen (execute p) := rfl

theorem execute_append (p q : Program) (stack : List Float) :
    execute (p ++ q) stack = (execute p stack).andThen (execute q) := by
  induction p generalizing stack with
  | nil => rfl
  | cons i p ih =>
    rw [List.cons_append, execute_cons, execute_cons]
    cases step i stack with
    | stack values => exact ih values
    | fault f => rfl
    | stuck => rfl

theorem execute_singleton (i : Instruction) (stack : List Float) :
    execute [i] stack = step i stack := by
  rw [execute_cons]
  cases step i stack <;> rfl

theorem execute_eq_fault_iff {p : Program} {stack : List Float} {f : Fault} :
    execute p stack = .fault f ↔ ∃ before i after values, p = before ++ i :: after ∧
      execute before stack = .stack values ∧ step i values = .fault f := by
  constructor
  · intro failed
    induction p generalizing stack with
    | nil => simp at failed
    | cons i p ih =>
      rw [execute_cons] at failed
      cases here : step i stack with
      | stack values =>
        rw [here, andThen_stack] at failed
        obtain ⟨before, j, after, values', parts, ran, failing⟩ := ih failed
        exact ⟨i :: before, j, after, values', by rw [parts, List.cons_append],
          by rw [execute_cons, here, andThen_stack, ran], failing⟩
      | fault g =>
        rw [here, andThen_fault] at failed
        exact ⟨[], i, p, stack, rfl, rfl, by rw [here, failed]⟩
      | stuck => simp [here] at failed
  · intro found
    obtain ⟨before, i, after, values, parts, ran, failing⟩ := found
    rw [parts, execute_append, ran, andThen_stack, execute_cons, failing, andThen_fault]

/-- From the stack, the program runs through to one of which `Q` holds, or it fails as the result
does. -/
def Meets {α : Type} (p : Program) (stack : List Float) (result : Except Fault α)
    (Q : List Float → Prop) : Prop :=
  (∃ values, execute p stack = .stack values ∧ Q values) ∨
    ∃ f, execute p stack = .fault f ∧ result = .error f

section Meets

variable {α β : Type} {p q : Program} {stack values : List Float} {result : Except Fault α}
  {other : Except Fault β} {Q R : List Float → Prop}

theorem Meets.mono (h : Meets p stack result Q) (done : ∀ values, Q values → R values)
    (failed : ∀ f, result = .error f → other = .error f) : Meets p stack other R := by
  cases h with
  | inl through => exact .inl (through.imp fun values ran => ⟨ran.1, done values ran.2⟩)
  | inr broken => exact .inr (broken.imp fun f ran => ⟨ran.1, failed f ran.2⟩)

theorem meets_append_of_stack (ran : execute p stack = .stack values) :
    Meets (p ++ q) stack result Q ↔ Meets q values result Q := by
  rw [Meets, execute_append, ran, andThen_stack, Meets]

theorem meets_append_of_fault {f : Fault} (ran : execute p stack = .fault f)
    (failed : result = .error f) : Meets (p ++ q) stack result Q :=
  .inr ⟨f, by rw [execute_append, ran, andThen_fault], failed⟩

end Meets

end Program

open Program

namespace Descent

section Ends

variable {α β : Type} {y : Descent α} {s : List Glyph}

theorem ends_after {p : Program} {Q : Program × α → List Glyph → Prop} {E : Program × Fault → Prop} :
    Ends (after p y).scan s Q E ↔
      Ends y.scan s (fun e => Q (p ++ e.1, e.2)) fun e => E (p ++ e.1, e.2) := by
  unfold Ends after
  rw [run_convert]
  cases y.scan.run s with
  | mk result rest => cases result <;> rfl

theorem ends_bind {g : α → Descent β} {Q : Program × β → List Glyph → Prop}
    {E : Program × Fault → Prop} :
    Ends (y >>= g).scan s Q E ↔ Ends y.scan s (fun e rest => Ends (g e.2).scan rest
      (fun e' => Q (e.1 ++ e'.1, e'.2)) fun e' => E (e.1 ++ e'.1, e'.2)) E := by
  simp only [← ends_after]
  exact Scan.ends_bind

theorem ends_lift {x : Production α} {Q : Program × α → List Glyph → Prop}
    {E : Program × Fault → Prop} :
    Ends (lift x).scan s Q E ↔ Ends x s (fun a => Q ([], a)) fun f => E ([], f) := by
  unfold Ends lift
  rw [run_convert]
  cases x.run s with
  | mk result rest => cases result <;> rfl

theorem ends_emit {p : Program} {Q : Program × Unit → List Glyph → Prop}
    {E : Program × Fault → Prop} : Ends (emit p).scan s Q E ↔ Q (p, ()) s := by
  rw [emit, ends_after, ends_lift, ends_pure, List.append_nil]

end Ends

end Descent

/-- Whatever the descent emits on the way, its instructions meet what the production does: with a
value they leave the stack as `Q` says, and where the descent ends in a fault the production does,
too. -/
def Follows {α β : Type} (stack : List Float) (x : Production α) (y : Descent β) (s : List Glyph)
    (Q : List Float → α → β → List Glyph → Prop) : Prop :=
  Ends y.scan s
    (fun e rest => Meets e.1 stack (x.run s).1 fun values =>
      ∃ a, x.run s = (.ok a, rest) ∧ Q values a e.2 rest)
    fun e => Meets e.1 stack (x.run s).1 fun _ => (x.run s).1 = .error e.2

section Follows

variable {α β α' β' : Type} {stack values : List Float} {s : List Glyph}
  {Q : List Float → α → β → List Glyph → Prop}

theorem Follows.imp {R : List Float → α → β → List Glyph → Prop} {x : Production α} {y : Descent β}
    (h : Follows stack x y s Q) (more : ∀ values a b rest, Q values a b rest → R values a b rest) :
    Follows stack x y s R := by
  refine Ends.imp h fun e rest met => met.mono (fun values there => ?_) fun _ failed => failed
  exact there.imp fun a ran => ⟨ran.1, more values a e.2 rest ran.2⟩

theorem Follows.pure {a : α} {b : β} (h : Q stack a b s) :
    Follows stack (pure a) (pure b) s Q :=
  Descent.ends_lift.mpr (.inl ⟨stack, rfl, a, rfl, h⟩)

theorem Follows.lift {x : Production α} {Q : List Float → α → α → List Glyph → Prop}
    (h : ∀ a rest, x.run s = (.ok a, rest) → Q stack a a rest) :
    Follows stack x (Descent.lift x) s Q := by
  refine Descent.ends_lift.mpr ?_
  unfold Ends
  cases ran : x.run s with
  | mk result rest =>
    cases result with
    | ok a => exact .inl ⟨stack, rfl, a, rfl, h a rest ran⟩
    | error f => exact .inl ⟨stack, rfl, rfl⟩

theorem Follows.failWith {error : List Glyph → Fault} :
    Follows stack (Scan.failWith error) (Descent.lift (Scan.failWith error)) s Q :=
  Descent.ends_lift.mpr (.inl ⟨stack, rfl, rfl⟩)

theorem Follows.emit {i : Instruction} {r : Except Fault Float}
    {Q : List Float → Float → Unit → List Glyph → Prop} (step : step i stack = push values r)
    (h : ∀ a, r = .ok a → Q (a :: values) a () s) :
    Follows stack (Scan.ofExcept r) (Descent.emit [i]) s Q := by
  refine Descent.ends_emit.mpr ?_
  rw [Meets, execute_singleton, step, run_ofExcept]
  cases r with
  | ok a => exact .inl ⟨a :: values, rfl, a, rfl, h a rfl⟩
  | error f => exact .inr ⟨f, rfl, rfl⟩

theorem Follows.emits {p : Program} {a : α} {Q : List Float → α → Unit → List Glyph → Prop}
    (ran : execute p stack = .stack values) (h : Q values a () s) :
    Follows stack (Pure.pure a) (Descent.emit p) s Q :=
  Descent.ends_emit.mpr (.inl ⟨values, ran, a, rfl, h⟩)

theorem run_bind_error {x : Production α'} {f : α' → Production α} {e : Fault}
    (failed : (x.run s).1 = .error e) : ((x >>= f).run s).1 = .error e := by
  rw [run_bind]
  cases ran : x.run s with
  | mk result rest =>
    rw [ran] at failed
    rw [show result = .error e from failed]

theorem Follows.bind {x : Production α'} {y : Descent β'} {f : α' → Production α}
    {g : β' → Descent β}
    (h : Follows stack x y s fun values a b rest => Follows values (f a) (g b) rest Q) :
    Follows stack (x >>= f) (y >>= g) s Q := by
  refine Descent.ends_bind.mpr (Ends.mono h (fun e rest first => ?_) fun e first => ?_)
  · cases first with
    | inl through =>
      obtain ⟨values, ran, a, first, follows⟩ := through
      have bound : (x >>= f).run s = (f a).run rest := by rw [run_bind, first]
      simp only [bound, meets_append_of_stack ran]
      exact follows
    | inr broken =>
      -- the descent goes on, but nothing it emits from here on is run
      obtain ⟨fault, ran, failed⟩ := broken
      have failed := run_bind_error (f := f) failed
      exact .of_forall (fun _ _ => meets_append_of_fault ran failed)
        fun _ => meets_append_of_fault ran failed
  · cases first with
    | inl through =>
      obtain ⟨values, ran, failed⟩ := through
      exact .inl ⟨values, ran, run_bind_error failed⟩
    | inr broken =>
      obtain ⟨fault, ran, failed⟩ := broken
      exact .inr ⟨fault, ran, run_bind_error failed⟩

theorem Follows.chain {join : Glyph → Option (α → Production α)}
    {joinDescent : Glyph → Option (β → Descent β)} {a : α} {b : β}
    (joints : ∀ g, join g = none ∧ joinDescent g = none ∨
      ∃ link linkDescent, join g = some link ∧ joinDescent g = some linkDescent ∧
        ∀ values a b s, Q values a b (g :: s) → Follows values (link a) (linkDescent b) s Q)
    (start : Q stack a b s) :
    Follows stack (Scan.chain join a) (Descent.chain joinDescent b) s Q := by
  -- so far the production has come where a chain from the value so far would start
  have along : Ends (Descent.chain joinDescent b).scan s
      (fun e rest => Meets e.1 stack ((Scan.chain join a).run s).1 fun values =>
        ∃ a', (Scan.chain join a).run s = (Scan.chain join a').run rest ∧ Q values a' e.2 rest)
      fun e => Meets e.1 stack ((Scan.chain join a).run s).1 fun _ =>
        ((Scan.chain join a).run s).1 = .error e.2 := by
    refine ends_chain (.inl ⟨stack, rfl, a, rfl, start⟩) fun e g rest link held joined => ?_
    cases joints g with
    | inl stop => simp [stop.2] at joined
    | inr both =>
      obtain ⟨link, linkDescent, here, there, linked⟩ := both
      rw [there, Option.map_some, Option.some.injEq] at joined
      rw [← joined, Descent.ends_after]
      cases held with
      | inl through =>
        obtain ⟨values, ran, a', came, held⟩ := through
        simp only [came, run_chain_link here, meets_append_of_stack ran]
        refine Ends.mono (linked values a' e.2 rest held) (fun e' rest' further => ?_)
          fun e' failed => ?_
        · refine Meets.mono further (fun values' arrived => ?_) fun _ => run_bind_error
          obtain ⟨b', linkRan, held'⟩ := arrived
          exact ⟨b', by rw [run_bind, linkRan], held'⟩
        · exact Meets.mono failed (fun _ => run_bind_error) fun _ => run_bind_error
      | inr broken =>
        obtain ⟨fault, ran, failed⟩ := broken
        exact .of_forall (fun _ _ => meets_append_of_fault ran failed)
          fun _ => meets_append_of_fault ran failed
  refine Ends.imp along.stopped fun e rest ended => ?_
  obtain ⟨arrived, stopped⟩ := ended
  refine Meets.mono arrived (fun values there => ?_) fun _ failed => failed
  obtain ⟨a', came, held⟩ := there
  have done : ∀ g ∈ rest.head?, join g = none := fun g hg => by
    have stop := Option.map_eq_none_iff.mp (stopped g hg)
    cases joints g with
    | inl neither => exact neither.1
    | inr both =>
      obtain ⟨link, linkDescent, -, there, -⟩ := both
      simp [stop] at there
  exact ⟨a', by rw [came, run_chain_done done], held⟩

end Follows

/-- From any stack, the descent emits what puts the value of the production on top. -/
def Emulates (x : Production Float) (y : Descent Unit) : Prop :=
  ∀ stack s, Follows stack x y s fun values v _ _ => values = v :: stack

section Emulates

variable {src : Source} {x : Production Float} {y : Descent Unit}

theorem emulates_number : Emulates (Literal.number src) (Descent.number src) := by
  intro stack s
  rw [← bind_pure (Literal.number src)]
  refine .bind (.lift fun v rest _ => ?_)
  exact .emit (r := .ok v) rfl fun _ _ => rfl

theorem emulates_group (inside : Emulates x y) :
    Emulates (group src x) (Descent.group src y) := by
  intro stack s
  refine .bind (.lift fun _ rest _ => .bind ((inside stack rest).imp fun values v _ rest' top => ?_))
  exact .bind (.lift fun _ _ _ => .pure top)

theorem emulates_root (inside : Emulates x y) :
    Emulates (root src x) (Descent.root src y) := by
  intro stack s
  refine .bind (.lift fun call rest _ => .bind (.lift fun _ rest' _ => .bind
    ((inside stack rest').imp fun values v _ rest'' top => ?_)))
  subst top
  exact .bind (.lift fun last _ _ => .emit rfl fun _ _ => rfl)

theorem emulates_function (inside : Emulates x y) :
    Emulates (function src x) (Descent.function src y) := by
  intro stack s
  refine .bind (.lift fun call rest _ => ?_)
  split_ifs
  · exact emulates_root inside stack rest
  · exact emulates_group inside stack rest
  · exact emulates_number stack rest

theorem emulates_unary (inside : Emulates x y) :
    Emulates (unary src x) (Descent.unary src y) := by
  intro stack s
  refine .bind (.lift fun minuses rest _ => .bind
    ((emulates_function inside stack rest).imp fun values v _ rest' top => ?_))
  subst top
  split_ifs
  · exact .emit (r := .ok (-v)) rfl fun _ _ => rfl
  · exact .emits rfl rfl

theorem execute_powers (top : Float) (bases stack : List Float) :
    execute (List.replicate bases.length (.binary .power none)) (top :: (bases ++ stack)) =
      .stack (Tower.value ⟨top, bases⟩ :: stack) := by
  induction bases generalizing top with
  | nil => rfl
  | cons base bases ih => exact ih (base.pow top)

theorem emulates_power (inside : Emulates x y) :
    Emulates (power src x) (Descent.power src y) := by
  intro stack s
  refine .bind ((emulates_unary inside stack s).imp fun values v _ rest top => .bind ?_)
  have chained : Follows values (Scan.chain (powers src x) ⟨v, []⟩)
      (Descent.chain (Descent.powers src y) 0) rest fun values tower height _ =>
        values = tower.top :: (tower.bases ++ stack) ∧ height = tower.bases.length := by
    refine .chain (fun g => ?_) ⟨top, rfl⟩
    cases found : operator? (· == .power) g with
    | none => exact .inl ⟨by rw [powers, found]; rfl, by rw [Descent.powers, found]; rfl⟩
    | some op =>
      refine .inr ⟨_, _, by rw [powers, found]; rfl, by rw [Descent.powers, found]; rfl,
        fun values tower height rest held => ?_⟩
      refine .bind ((emulates_unary inside values rest).imp fun values' v _ rest' top => .pure ?_)
      rw [top, held.1, held.2]
      exact ⟨rfl, rfl⟩
  refine chained.imp fun values' tower height rest' held => ?_
  rw [held.1, held.2]
  exact .emits (execute_powers _ _ _) rfl

theorem emulates_operations {kind : Operator → Bool} {span : Glyph → Option Span}
    (operand : Emulates x y) {stack values : List Float} {v : Float} {s : List Glyph}
    (top : values = v :: stack) :
    Follows values (Scan.chain (operations kind x span) v)
      (Descent.chain (Descent.operations kind y span) ()) s
      fun values v _ _ => values = v :: stack := by
  refine .chain (fun g => ?_) top
  cases found : operator? kind g with
  | none => exact .inl ⟨by rw [operations, found]; rfl, by rw [Descent.operations, found]; rfl⟩
  | some op =>
    refine .inr ⟨_, _, by rw [operations, found]; rfl, by rw [Descent.operations, found]; rfl,
      fun values left _ rest top => ?_⟩
    refine .bind ((operand values rest).imp fun values' right _ rest' top' => ?_)
    rw [top', top]
    exact .emit rfl fun _ _ => rfl

theorem emulates_term (inside : Emulates x y) : Emulates (term src x) (Descent.term src y) :=
  fun stack s => .bind ((emulates_power inside stack s).imp fun _ _ _ _ =>
    emulates_operations (emulates_power inside))

theorem emulates_sum (inside : Emulates x y) : Emulates (sum src x) (Descent.sum src y) :=
  fun stack s => .bind ((emulates_term inside stack s).imp fun _ _ _ _ =>
    emulates_operations (emulates_term inside))

theorem emulates_expression (src : Source) (limit levels : Nat) :
    Emulates (expression src limit levels) (Descent.expression src limit levels) := by
  induction levels with
  | zero => exact fun stack s => .failWith
  | succ levels ih => exact fun stack s => emulates_sum ih stack s

theorem emulates_whole (src : Source) (limit : Nat) :
    Emulates (whole src limit) (Descent.whole src limit) := by
  intro stack s
  refine .bind ((emulates_expression src limit limit stack s).imp fun values v _ rest top => ?_)
  refine .bind (.lift fun left _ _ => ?_)
  cases left with
  | nil => exact .pure top
  | cons g more => exact .failWith

end Emulates

def Syntactic {α : Type} (y : Descent α) : Prop :=
  ∀ s, Ends y.scan s (fun _ _ => True) fun e => ¬ e.2.IsArithmetic

section Syntactic

variable {α β : Type} {src : Source} {y : Descent Unit}

theorem syntactic_lift {x : Production α}
    (h : ∀ s, Ends x s (fun _ _ => True) fun f => ¬ f.IsArithmetic) : Syntactic (Descent.lift x) :=
  fun s => Descent.ends_lift.mpr (h s)

theorem syntactic_emit (p : Program) : Syntactic (Descent.emit p) :=
  fun _ => Descent.ends_emit.mpr trivial

theorem Syntactic.bind {y : Descent α} {g : α → Descent β} (first : Syntactic y)
    (more : ∀ a, Syntactic (g a)) : Syntactic (y >>= g) :=
  fun s => Descent.ends_bind.mpr (Ends.imp (first s) fun e rest _ => more e.2 rest)

theorem Syntactic.chain {join : Glyph → Option (α → Descent α)}
    (links : ∀ g link, join g = some link → ∀ a, Syntactic (link a)) (a : α) :
    Syntactic (Descent.chain join a) := by
  intro s
  refine ends_chain trivial fun e g rest link _ joined => ?_
  obtain ⟨linkDescent, here, same⟩ := Option.map_eq_some_iff.mp joined
  rw [← same, Descent.ends_after]
  exact links g linkDescent here e.2 rest

theorem syntactic_closing : Syntactic (Descent.lift (closing src)) :=
  syntactic_lift fun s => ends_closing (fun _ _ _ _ => trivial) (by simp [Fault.IsArithmetic])

theorem syntactic_number : Syntactic (Descent.number src) := by
  refine .bind (syntactic_lift fun s => ends_number.mpr ⟨fun _ _ => trivial, fun f failed => ?_⟩)
    fun v => syntactic_emit _
  cases literal_value_error failed with
  | inl expected => simp [expected.2, Fault.IsArithmetic]
  | inr invalid => simp [invalid.2, Fault.IsArithmetic]

theorem syntactic_function (inside : Syntactic y) : Syntactic (Descent.function src y) := by
  refine .bind (syntactic_lift fun _ => trivial) fun s => ?_
  split_ifs
  · refine .bind (syntactic_lift fun _ => trivial) fun call =>
      .bind (syntactic_lift fun _ => trivial) fun _ => .bind inside fun _ => ?_
    exact .bind syntactic_closing fun last => syntactic_emit _
  · refine .bind (syntactic_lift fun _ => trivial) fun _ => .bind inside fun _ => ?_
    exact .bind syntactic_closing fun _ => syntactic_lift fun _ => trivial
  · exact syntactic_number

theorem syntactic_unary (inside : Syntactic y) : Syntactic (Descent.unary src y) :=
  .bind (syntactic_lift fun _ => trivial) fun _ =>
    .bind (syntactic_function inside) fun _ => syntactic_emit _

theorem syntactic_power (inside : Syntactic y) : Syntactic (Descent.power src y) := by
  refine .bind (syntactic_unary inside) fun _ => .bind (.chain (fun g link joined height => ?_) 0)
    fun height => syntactic_emit _
  obtain ⟨op, -, same⟩ := Option.map_eq_some_iff.mp joined
  rw [← same]
  exact .bind (syntactic_unary inside) fun _ => syntactic_lift fun _ => trivial

theorem syntactic_operations {kind : Operator → Bool} {span : Glyph → Option Span}
    (operand : Syntactic y) (a : Unit) :
    Syntactic (Descent.chain (Descent.operations kind y span) a) := by
  refine .chain (fun g link joined _ => ?_) a
  obtain ⟨op, -, same⟩ := Option.map_eq_some_iff.mp joined
  rw [← same]
  exact .bind operand fun _ => syntactic_emit _

theorem syntactic_sum (inside : Syntactic y) : Syntactic (Descent.sum src y) := by
  have factor : Syntactic (Descent.power src y) := syntactic_power inside
  have summand : Syntactic (Descent.term src y) := .bind factor fun _ => syntactic_operations factor _
  exact .bind summand fun _ => syntactic_operations summand _

theorem syntactic_whole (src : Source) (limit : Nat) : Syntactic (Descent.whole src limit) := by
  have inside : ∀ levels, Syntactic (Descent.expression src limit levels) := by
    intro levels
    induction levels with
    | zero => exact syntactic_lift fun s => ends_failWith.mpr (by simp [Fault.IsArithmetic])
    | succ levels ih => exact syntactic_sum ih
  refine .bind (inside limit) fun _ => .bind (syntactic_lift fun _ => trivial) fun rest => ?_
  cases rest with
  | nil => exact syntactic_lift fun _ => trivial
  | cons g more => exact syntactic_lift fun s => ends_fail.mpr (by simp [Fault.IsArithmetic])

end Syntactic

end Abacus.Expression

namespace Abacus

open Expression Program Scan

variable {src : Source} {limit : Nat}

theorem Source.descend_nil (nothing : src.glyphs = []) :
    src.descend limit = ⟨[], some ⟨.emptyExpression, none⟩⟩ := by
  rw [Source.descend, if_pos nothing]

theorem Source.descend_cases (limit : Nat) (some_glyph : src.glyphs ≠ []) :
    (∃ p rest, (Descent.whole src limit).scan.run src.glyphs = (.ok (p, ()), rest) ∧
      src.descend limit = ⟨p, none⟩) ∨
    ∃ p f rest, (Descent.whole src limit).scan.run src.glyphs = (.error (p, f), rest) ∧
      src.descend limit = ⟨p, some f⟩ := by
  rw [Source.descend, if_neg some_glyph]
  cases (Descent.whole src limit).scan.run src.glyphs with
  | mk result rest =>
    cases result with
    | ok e => exact .inl ⟨e.1, rest, rfl, rfl⟩
    | error e => exact .inr ⟨e.1, e.2, rest, rfl, rfl⟩

theorem Source.descend_answer (src : Source) (limit : Nat) :
    (src.descend limit).answer? = some (src.evaluate limit) := by
  by_cases nothing : src.glyphs = []
  · rw [Source.descend_nil nothing, Source.evaluate_nil nothing]
    rfl
  · have emulated := emulates_whole src limit [] src.glyphs
    unfold Follows Ends at emulated
    rw [Source.evaluate, Source.evaluateFrom, if_neg nothing, Emission.answer?]
    cases Source.descend_cases limit nothing with
    | inl success =>
      obtain ⟨p, rest, ran, descended⟩ := success
      rw [ran] at emulated
      rw [descended]
      cases emulated with
      | inl through =>
        obtain ⟨values, executed, v, evaluated, top⟩ := through
        rw [executed, evaluated, top]
      | inr broken =>
        obtain ⟨f, executed, failed⟩ := broken
        rw [executed, failed]
    | inr failure =>
      obtain ⟨p, f, rest, ran, descended⟩ := failure
      rw [ran] at emulated
      rw [descended]
      cases emulated with
      | inl through =>
        obtain ⟨values, executed, failed⟩ := through
        rw [executed, failed]
      | inr broken =>
        obtain ⟨g, executed, failed⟩ := broken
        rw [executed, failed]

theorem Source.descend_fault {f : Fault} (ended : (src.descend limit).fault = some f) :
    ¬ f.IsArithmetic := by
  by_cases nothing : src.glyphs = []
  · rw [Source.descend_nil nothing, Option.some.injEq] at ended
    simp [← ended, Fault.IsArithmetic]
  · have syntactic := syntactic_whole src limit src.glyphs
    unfold Ends at syntactic
    cases Source.descend_cases limit nothing with
    | inl success =>
      obtain ⟨p, rest, ran, descended⟩ := success
      simp [descended] at ended
    | inr failure =>
      obtain ⟨p, g, rest, ran, descended⟩ := failure
      rw [ran] at syntactic
      rw [descended, Option.some.injEq] at ended
      rwa [← ended]

theorem Expression.Emission.answer?_eq_error_iff {e : Emission} {f : Fault}
    (syntactic : ∀ g, e.fault = some g → ¬ g.IsArithmetic) (arithmetic : f.IsArithmetic) :
    e.answer? = some (.error f) ↔ execute e.program [] = .fault f := by
  unfold Emission.answer?
  cases execute e.program [] with
  | fault g => simp
  | stuck => simp
  | stack values =>
    cases ended : e.fault with
    | none =>
      match values with
      | [] => simp
      | [x] => simp
      | x :: y :: more => simp
    | some g =>
      have other : g ≠ f := fun same => syntactic g ended (same ▸ arithmetic)
      match values with
      | [] => simp [other]
      | [x] => simp [other]
      | x :: y :: more => simp [other]

/-- A text evaluates to what its descent answers: the fault of the first operation that fails when
what the descent emits is run, else the fault the descent ends in, else the value that is left. The
descent itself ends in no fault of the arithmetic, so such a fault hides another exactly when its
operation was emitted before the descent ended. -/
theorem evaluate_eq_descend (text : String) (limit : Nat) :
    (descend text limit).answer? = some (evaluate text limit) ∧
    (∀ f, (descend text limit).fault = some f → ¬ f.IsArithmetic) ∧
    ∀ f, f.IsArithmetic → (evaluate text limit = .error f ↔
      ∃ before i after values, (descend text limit).program = before ++ i :: after ∧
        execute before [] = .stack values ∧ step i values = .fault f) := by
  have answered := (Source.ofText text).descend_answer limit
  refine ⟨answered, fun f => Source.descend_fault, fun f arithmetic => ?_⟩
  have syntactic : ∀ g, (descend text limit).fault = some g → ¬ g.IsArithmetic :=
    fun g => Source.descend_fault
  rw [← execute_eq_fault_iff, ← Emission.answer?_eq_error_iff syntactic arithmetic]
  rw [descend, answered, Option.some.injEq]
  rfl

/-- A division and a root are complete when a bracket is missed after them; a root whose own bracket
is missed is not. -/
theorem evaluate_quotient_and_root :
    (∃ before i after values, (descend "1/0+(" 50).program = before ++ i :: after ∧
      execute before [] = .stack values ∧ step i values = .fault ⟨.divisionByZero, some ⟨1, 2⟩⟩) ∧
    (∃ before i after values, (descend "sqrt(0-1)+(" 50).program = before ++ i :: after ∧
      execute before [] = .stack values ∧
        step i values = .fault ⟨.negativeSquareRoot, some ⟨0, 9⟩⟩) ∧
    ¬ ∃ before i after values, (descend "sqrt(0-1" 50).program = before ++ i :: after ∧
      execute before [] = .stack values ∧
        step i values = .fault ⟨.negativeSquareRoot, some ⟨0, 8⟩⟩ := by
  refine ⟨?_, ?_, ?_⟩
  · refine ((evaluate_eq_descend "1/0+(" 50).2.2 _ (.inl rfl)).mp ?_
    decide +kernel
  · refine ((evaluate_eq_descend "sqrt(0-1)+(" 50).2.2 _ (.inr rfl)).mp ?_
    decide +kernel
  · refine mt ((evaluate_eq_descend "sqrt(0-1" 50).2.2 _ (.inr rfl)).mpr ?_
    decide +kernel

end Abacus
