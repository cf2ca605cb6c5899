import Mathlib
import Abacus.Proofs.Expression.Literals
import Abacus.Proofs.Expression.Productions

/-!
What the grammar derives is read, up to what may follow it, and gives the value of its tree; a tree
without a value gives a fault of the arithmetic. The induction is on the derivation. Tails are read
by chains that start from the value of what stands before them, powers by a chain that may have
operands waiting already.
-/

namespace Abacus

def Fault.IsArithmetic (f : Fault) : Prop :=
  f.cause = .divisionByZero ∨ f.cause = .negativeSquareRoot

namespace Expression

open Scan

theorem apply_cases (op : Operator) (x y : Float) (span span' : Option Span) :
    (∃ z, op.apply x y span = .ok z ∧ op.apply x y span' = .ok z) ∨
      op = .divide ∧ op.apply x y span = .error ⟨.divisionByZero, span⟩ ∧
        op.apply x y span' = .error ⟨.divisionByZero, span'⟩ := by
  cases op <;> simp only [Operator.apply]
  case divide =>
    by_cases zero : (y == 0) = true
    · simp [zero]
    · simp [zero]
  all_goals simp

theorem squareRoot_cases (x : Float) (span span' : Option Span) :
    (∃ z, squareRoot x span = .ok z ∧ squareRoot x span' = .ok z) ∨
      squareRoot x span = .error ⟨.negativeSquareRoot, span⟩ ∧
        squareRoot x span' = .error ⟨.negativeSquareRoot, span'⟩ := by
  unfold squareRoot
  by_cases negative : x < 0
  · simp [negative]
  · simp [negative]

theorem apply_error {op : Operator} {x y : Float} {span : Option Span} {f : Fault}
    (h : op.apply x y span = .error f) : f = ⟨.divisionByZero, span⟩ ∧ op = .divide := by
  obtain ⟨z, ok, -⟩ | ⟨divide, error, -⟩ := apply_cases op x y span span
  · simp [h] at ok
  · exact ⟨Except.error.inj (h.symm.trans error), divide⟩

theorem squareRoot_error {x : Float} {span : Option Span} {f : Fault}
    (h : squareRoot x span = .error f) : f = ⟨.negativeSquareRoot, span⟩ := by
  obtain ⟨z, ok, -⟩ | ⟨error, -⟩ := squareRoot_cases x span span
  · simp [h] at ok
  · exact Except.error.inj (h.symm.trans error)

theorem apply_toOption (op : Operator) (x y : Float) (span : Option Span) :
    (op.apply x y none).toOption = (op.apply x y span).toOption := by
  obtain ⟨z, here, there⟩ | ⟨-, here, there⟩ := apply_cases op x y none span
  · rw [here, there]
  · rw [here, there]
    rfl

theorem squareRoot_toOption (x : Float) (span : Option Span) :
    (squareRoot x none).toOption = (squareRoot x span).toOption := by
  obtain ⟨z, here, there⟩ | ⟨here, there⟩ := squareRoot_cases x none span
  · rw [here, there]
  · rw [here, there]
    rfl

theorem value_binary {op : Operator} {t u : Tree} {x y : Float} (ht : t.value = some x)
    (hu : u.value = some y) (span : Option Span) :
    (Tree.binary op t u).value = (op.apply x y span).toOption := by
  simp [Tree.value, ht, hu, apply_toOption op x y span]

theorem value_binary_eq_none {op : Operator} {t u : Tree} (h : t.value = none ∨ u.value = none) :
    (Tree.binary op t u).value = none := by
  obtain h | h := h
  · simp [Tree.value, h]
  · cases ht : t.value <;> simp [Tree.value, h, ht]

theorem value_root {t : Tree} {x : Float} (ht : t.value = some x) (span : Option Span) :
    (Tree.root t).value = (squareRoot x span).toOption := by
  simp [Tree.value, ht, squareRoot_toOption x span]

theorem Derives.undefined_tail {n : Nat} {r : Rule} {t u : Tree} {hs : List Glyph}
    (h : Derives n r hs u) (tail : r.left? = some t) (undefined : t.value = none) :
    u.value = none := by
  induction h generalizing t with
  | summandsEnd =>
    obtain rfl := Option.some.inj tail
    exact undefined
  | factorsEnd =>
    obtain rfl := Option.some.inj tail
    exact undefined
  | summandsMore _ _ _ _ _ ih =>
    obtain rfl := Option.some.inj tail
    exact ih rfl (value_binary_eq_none (.inl undefined))
  | factorsMore _ _ _ _ _ ih =>
    obtain rfl := Option.some.inj tail
    exact ih rfl (value_binary_eq_none (.inl undefined))
  | _ => cases tail

/-- The production gives the value of the tree and leaves `rest`, or the tree has no value. -/
def Evaluates (x : Production Float) (s : List Glyph) (t : Tree) (rest : List Glyph) : Prop :=
  Ends x s (fun v rest' => t.value = some v ∧ rest' = rest) fun f => t.value = none ∧ f.IsArithmetic

def EvaluatesTower (x : Production Tower) (bases : List Float) (s : List Glyph) (t : Tree)
    (rest : List Glyph) : Prop :=
  Ends x s (fun tower rest' => ∃ v, t.value = some v ∧
    tower.value = bases.foldl (fun exponent base => base.pow exponent) v ∧ rest' = rest)
    fun f => t.value = none ∧ f.IsArithmetic

theorem Evaluates.bind {x : Production Float} {y : Float → Production Float}
    {s s' rest : List Glyph} {t u : Tree} (first : Evaluates x s t s')
    (more : ∀ v, t.value = some v → Evaluates (y v) s' u rest)
    (undefined : t.value = none → u.value = none) : Evaluates (x >>= y) s u rest := by
  refine ends_bind.mpr (Ends.mono first ?_ ?_)
  · rintro v _ ⟨value, rfl⟩
    exact more v value
  · rintro f ⟨none, arithmetic⟩
    exact ⟨undefined none, arithmetic⟩

theorem evaluates_operation {kind : Operator → Bool} {operand : Production Float}
    {span : Glyph → Option Span} {op : Operator} {g : Glyph} {s s' rest : List Glyph} {t u w : Tree}
    {v : Float} (char : g.char = op.symbol) (isKind : kind op = true) (value : t.value = some v)
    (read : Evaluates operand s u s')
    (more : ∀ z, (Tree.binary op t u).value = some z →
      Evaluates (chain (operations kind operand span) z) s' w rest)
    (undefined : (Tree.binary op t u).value = none → w.value = none) :
    Evaluates (chain (operations kind operand span) v) (g :: s) w rest := by
  refine (ends_operations_link char isKind).mpr (Ends.mono read ?_ ?_)
  · rintro y _ ⟨hy, rfl⟩
    have result : (Tree.binary op t u).value = _ := value_binary value hy (span g)
    refine ⟨fun z hz => more z (by rw [result, hz]; rfl), fun f hf => ?_⟩
    refine ⟨undefined (by rw [result, hf]; rfl), .inl ?_⟩
    rw [(apply_error hf).1]
  · rintro f ⟨undefinedOperand, arithmetic⟩
    exact ⟨undefined (value_binary_eq_none (.inr undefinedOperand)), arithmetic⟩

section Productions

variable {src : Source} {nested : Production Float} {s rest : List Glyph} {t u : Tree}

theorem evaluates_power
    (h : EvaluatesTower (unary src nested >>= fun v => chain (powers src nested) ⟨v, []⟩) []
      s t rest) :
    Evaluates (power src nested) s t rest := by
  refine ends_power.mpr (ends_bind.mp (Ends.imp h ?_))
  rintro tower _ ⟨v, value, raised, rfl⟩
  exact ⟨value.trans (congrArg some raised.symm), rfl⟩

theorem evaluatesTower_base (operand : Evaluates (unary src nested) s t rest)
    (stop : ∀ g ∈ rest.head?, g.char ≠ '^') (bases : List Float) :
    EvaluatesTower (unary src nested >>= fun v => chain (powers src nested) ⟨v, bases⟩) bases
      s t rest := by
  refine ends_bind.mpr (Ends.imp operand ?_)
  rintro v _ ⟨value, rfl⟩
  exact (ends_powers_stop stop).mpr ⟨v, value, rfl, rfl⟩

theorem evaluatesTower_raised {g : Glyph} {s' : List Glyph} (caret : g.char = '^')
    (operand : Evaluates (unary src nested) s t (g :: s')) (bases : List Float)
    (exponent : ∀ x, EvaluatesTower
      (unary src nested >>= fun v => chain (powers src nested) ⟨v, x :: bases⟩) (x :: bases)
      s' u rest) :
    EvaluatesTower (unary src nested >>= fun v => chain (powers src nested) ⟨v, bases⟩) bases
      s (.binary .power t u) rest := by
  -- the exponent is read with the base waiting for it
  refine ends_bind.mpr (Ends.mono operand ?_ ?_)
  · rintro x _ ⟨hx, rfl⟩
    refine (ends_powers_link caret).mpr (ends_bind.mp (Ends.mono (exponent x) ?_ ?_))
    · rintro tower _ ⟨y, hy, raised, rfl⟩
      refine ⟨x.pow y, ?_, raised, rfl⟩
      rw [value_binary hx hy none]
      rfl
    · rintro f ⟨undefined, arithmetic⟩
      exact ⟨value_binary_eq_none (.inr undefined), arithmetic⟩
  · rintro f ⟨undefined, arithmetic⟩
    exact ⟨value_binary_eq_none (.inl undefined), arithmetic⟩

theorem evaluates_unary {minuses : List Glyph} (run : ∀ g ∈ minuses, g.char = '-')
    (stop : ∀ g ∈ s.head?, (g.char == '-') = false)
    (operand : Evaluates (function src nested) s t rest) :
    Evaluates (unary src nested) (minuses ++ s) (.signs minuses.length t) rest := by
  have run' : ∀ g ∈ minuses, (g.char == '-') = true := by simpa using run
  refine ends_unary.mpr ?_
  rw [dropWhile_append_of_stop run' stop, takeWhile_append_of_stop run' stop]
  refine Ends.mono operand ?_ ?_
  · rintro v _ ⟨value, rfl⟩
    exact ⟨by simp [Tree.value, value], rfl⟩
  · rintro f ⟨undefined, arithmetic⟩
    exact ⟨by simp [Tree.value, undefined], arithmetic⟩

theorem evaluates_root {call : List Glyph} {close : Glyph} (word : call.map Glyph.char = rootWord)
    (closed : close.char = ')') (inside : Evaluates nested s t (close :: rest)) :
    Evaluates (function src nested) (call ++ s) (.root t) rest := by
  have length : call.length = rootWord.length := by rw [← word, List.length_map]
  refine (ends_function_root (beginsWith_iff.mpr ⟨call, _, rfl, word⟩)).mpr (ends_root.mpr ?_)
  rw [← length, List.drop_left]
  refine Ends.mono inside ?_ ?_
  · rintro x _ ⟨value, rfl⟩
    refine (ends_closing_cons closed).mpr ⟨fun y hy => ⟨?_, rfl⟩, fun f hf => ⟨?_, .inr ?_⟩⟩
    · rw [value_root value, hy]
      rfl
    · rw [value_root value, hf]
      rfl
    · rw [squareRoot_error hf]
  · rintro f ⟨undefined, arithmetic⟩
    exact ⟨by simp [Tree.value, undefined], arithmetic⟩

theorem evaluates_group {bracket close : Glyph} (opened : bracket.char = '(')
    (closed : close.char = ')') (inside : Evaluates nested s t (close :: rest)) :
    Evaluates (function src nested) (bracket :: s) (.group t) rest := by
  have notRoot : bracket.char ≠ 's' := by simp [opened]
  refine (ends_function_group (beginsWith_eq_false notRoot) ?_).mpr (ends_group.mpr ?_)
  · exact beginsWith_iff.mpr ⟨[bracket], _, rfl, by simp [opened]⟩
  · refine Ends.imp inside ?_
    rintro x _ ⟨value, rfl⟩
    exact (ends_closing_cons closed).mpr ⟨value, rfl⟩

theorem evaluates_number {gs : List Glyph} {x : Numeral} (text : gs.map Glyph.char = x.text)
    (contiguous : Contiguous gs) (stop : ∀ g ∈ rest.head?, Literal.isNumeric g.char = false) :
    Evaluates (function src nested) (gs ++ rest) (.literal x) rest := by
  obtain ⟨g, more, rfl, digit⟩ :=
    (Derives.number (n := 0) text contiguous).exists_function_eq_cons
  have notRoot : g.char ≠ 's' := by
    intro h
    simp [h, Tree.BeginsWith] at digit
  have notGroup : g.char ≠ '(' := by
    intro h
    simp [h, Tree.BeginsWith] at digit
  refine (ends_function_number (beginsWith_eq_false notRoot) (beginsWith_eq_false notGroup)).mpr
    (ends_number.mpr ?_)
  have literal : Literal.split (g :: (more ++ rest)) = (g :: more, rest) :=
    split_append_of_stop contiguous (isNumeric_of_text text) stop
  rw [List.append_eq, literal, literal_value text]
  simp [Tree.value]

end Productions

/-- What reading makes of a derivation. -/
def Read (src : Source) (limit n : Nat) (s : List Glyph) (t : Tree) (rest : List Glyph) :
    Rule → Prop
  | .expression => Evaluates (expression src limit n) s t rest
  | .summands left => ∀ v, left.value = some v →
    Evaluates (chain (summands src (expression src limit n)) v) s t rest
  | .term => Evaluates (term src (expression src limit n)) s t rest
  | .factors left => ∀ v, left.value = some v →
    Evaluates (chain (factors src (expression src limit n)) v) s t rest
  | .power => ∀ bases, EvaluatesTower (unary src (expression src limit n) >>= fun v =>
    chain (powers src (expression src limit n)) ⟨v, bases⟩) bases s t rest
  | .unary => Evaluates (unary src (expression src limit n)) s t rest
  | .function => Evaluates (function src (expression src limit n)) s t rest

theorem Derives.read {n : Nat} {r : Rule} {gs : List Glyph} {t : Tree} (h : Derives n r gs t)
    (src : Source) (limit : Nat) :
    ∀ rest, r.MayFollow (rest.map Glyph.char) → Read src limit n (gs ++ rest) t rest r := by
  -- by induction on the derivation, for whatever comes after it that may follow the rule
  induction h with
  | @expression n gs hs t u first more ih ihMore =>
    intro rest hrest
    rw [List.append_assoc]
    have term := ih _ (List.map_append ▸ more.mayFollow_summands hrest)
    have sum := Evaluates.bind term (ihMore rest hrest) (more.undefined_tail rfl)
    exact ends_expression_succ.mpr sum
  | summandsEnd =>
    intro rest hrest v value
    rw [summands_eq]
    refine (ends_operations_stop fun g hg op additive char => ?_).mpr ⟨value, rfl⟩
    exact symbol_not_mem_follow_expression op (char ▸ hrest.head g hg)
  | summandsMore char additive operand more ih ihMore =>
    intro rest hrest v value
    rw [List.cons_append, List.append_assoc, summands_eq]
    have term := ih _ (List.map_append ▸ more.mayFollow_summands hrest)
    exact evaluates_operation char additive value term (ihMore rest hrest) (more.undefined_tail rfl)
  | @term n gs hs t u first more ih ihMore =>
    intro rest hrest
    rw [List.append_assoc]
    have power := evaluates_power (ih _ (List.map_append ▸ more.mayFollow_factors hrest) [])
    exact Evaluates.bind power (ihMore rest hrest) (more.undefined_tail rfl)
  | factorsEnd =>
    intro rest hrest v value
    rw [factors_eq]
    refine (ends_operations_stop fun g hg op multiplicative char => ?_).mpr ⟨value, rfl⟩
    exact symbol_not_mem_follow_term multiplicative (char ▸ hrest.head g hg)
  | factorsMore char multiplicative operand more ih ihMore =>
    intro rest hrest v value
    rw [List.cons_append, List.append_assoc, factors_eq]
    have power := evaluates_power (ih _ (List.map_append ▸ more.mayFollow_factors hrest) [])
    exact evaluates_operation char multiplicative value power (ihMore rest hrest)
      (more.undefined_tail rfl)
  | base operand ih =>
    -- what may follow a power is no further caret, so the chain stops with what it has
    intro rest hrest
    refine evaluatesTower_base (ih rest (hrest.mono (by decide))) fun g hg caret => ?_
    have follows := hrest.head g hg
    simp [caret, Rule.follow] at follows
  | @raised n gs hs t u g operand caret exponent ih ihExponent =>
    intro rest hrest bases
    rw [List.append_assoc, List.cons_append]
    have base := ih (g :: (hs ++ rest)) (by simp [caret, Rule.follow])
    exact evaluatesTower_raised caret base bases fun x => ihExponent rest hrest (x :: bases)
  | @unary n gs t minuses run operand ih =>
    intro rest hrest
    rw [List.append_assoc]
    refine evaluates_unary run (fun g hg => ?_) (ih rest hrest)
    refine operand.not_minus (rest.map Glyph.char) g.char ?_
    rw [← List.map_append, List.head?_map, Option.mem_def.mp hg]
    rfl
  | @root n gs t call close word inner closed ih =>
    intro rest hrest
    rw [List.append_assoc, List.append_assoc]
    exact evaluates_root word closed (ih (close :: rest) (by simp [closed, Rule.follow]))
  | @group n gs t bracket close opened inner closed ih =>
    intro rest hrest
    rw [List.cons_append, List.append_assoc]
    exact evaluates_group opened closed (ih (close :: rest) (by simp [closed, Rule.follow]))
  | @number n gs x text contiguous =>
    intro rest hrest
    refine evaluates_number text contiguous fun g hg => ?_
    exact not_isNumeric_of_follow (hrest.head g hg)

end Expression

end Abacus
