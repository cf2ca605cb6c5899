import Abacus.Scan

/-!
What holds when a scan ends. `Ends` is the weakest precondition of one scan, on the list it starts
from; `EndTogether` compares two scans on two lists, `Approximates` two scans on every list,
`Foretells` two scans on a list and on a longer one. Each way to build a scan has one rule here, and
nothing later opens a scan. The rule of `chain` asks for an invariant of what has been read so far.
-/

namespace Abacus.Scan

variable {σ τ ε δ α β γ : Type}

/-- From `s` on, a value and what is left meet `Q`, an error meets `E`. -/
def Ends (x : Scan σ ε α) (s : List σ) (Q : α → List σ → Prop) (E : ε → Prop) : Prop :=
  match x.run s with
  | (.ok a, rest) => Q a rest
  | (.error e, _) => E e

section Ends

variable {Q Q' : α → List σ → Prop} {E E' : ε → Prop} {s : List σ}

theorem Ends.mono {x : Scan σ ε α} (h : Ends x s Q E) (value : ∀ a rest, Q a rest → Q' a rest)
    (error : ∀ e, E e → E' e) : Ends x s Q' E' := by
  unfold Ends at *
  cases hx : x.run s with
  | mk result rest =>
    rw [hx] at h
    cases result with
    | error e => exact error e h
    | ok a => exact value a rest h

theorem Ends.imp {x : Scan σ ε α} (h : Ends x s Q E) (value : ∀ a rest, Q a rest → Q' a rest) :
    Ends x s Q' E :=
  h.mono value fun _ he => he

theorem Ends.and {x : Scan σ ε α} (h : Ends x s Q E) (h' : Ends x s Q' E') :
    Ends x s (fun a rest => Q a rest ∧ Q' a rest) fun e => E e ∧ E' e := by
  unfold Ends at *
  cases hx : x.run s with
  | mk result rest =>
    rw [hx] at h h'
    cases result with
    | error e => exact ⟨h, h'⟩
    | ok a => exact ⟨h, h'⟩

theorem Ends.elim {x : Scan σ ε α} (h : Ends x s Q E) (value : ∀ a rest, ¬ Q a rest)
    (error : ∀ e, ¬ E e) : False := by
  unfold Ends at h
  cases hx : x.run s with
  | mk result rest =>
    rw [hx] at h
    cases result with
    | error e => exact error e h
    | ok a => exact value a rest h

theorem Ends.of_forall {x : Scan σ ε α} (value : ∀ a rest, Q a rest) (error : ∀ e, E e) :
    Ends x s Q E := by
  unfold Ends
  cases x.run s with
  | mk result rest =>
    cases result with
    | error e => exact error e
    | ok a => exact value a rest

theorem Ends.suffix {x : Scan σ ε α} (h : Ends x s Q E) :
    Ends x s (fun a rest => Q a rest ∧ rest <:+ s) E := by
  have left := x.suffix s
  unfold Ends at *
  cases hx : x.run s with
  | mk result rest =>
    rw [hx] at h left
    cases result with
    | error e => exact h
    | ok a => exact ⟨h, left⟩

theorem ends_pure {a : α} : Ends (pure a : Scan σ ε α) s Q E ↔ Q a s := Iff.rfl

theorem ends_bind {x : Scan σ ε β} {f : β → Scan σ ε α} :
    Ends (x >>= f) s Q E ↔ Ends x s (fun b rest => Ends (f b) rest Q E) E := by
  unfold Ends
  rw [run_bind]
  cases x.run s with
  | mk result rest => cases result <;> rfl

theorem ends_look {Q : List σ → List σ → Prop} : Ends (look : Scan σ ε _) s Q E ↔ Q s s := Iff.rfl

theorem ends_skip {Q : Unit → List σ → Prop} {n : Nat} :
    Ends (skip n : Scan σ ε Unit) s Q E ↔ Q () (s.drop n) := Iff.rfl

theorem ends_takeWhile {Q : List σ → List σ → Prop} {test : σ → Bool} :
    Ends (takeWhile test : Scan σ ε _) s Q E ↔ Q (s.takeWhile test) (s.dropWhile test) := Iff.rfl

theorem ends_failWith {error : List σ → ε} :
    Ends (failWith error : Scan σ ε α) s Q E ↔ E (error s) := Iff.rfl

theorem ends_fail {e : ε} : Ends (fail e : Scan σ ε α) s Q E ↔ E e := Iff.rfl

theorem ends_delay {x : Unit → Scan σ ε α} : Ends (delay x) s Q E ↔ Ends (x ()) s Q E := Iff.rfl

theorem ends_ofExcept {r : Except ε α} :
    Ends (ofExcept r : Scan σ ε α) s Q E ↔ (∀ a, r = .ok a → Q a s) ∧ ∀ e, r = .error e → E e := by
  cases r <;> simp [Ends]

theorem run_bind_of_ok {x : Scan σ ε β} {f : β → Scan σ ε α} {b : β} {rest : List σ}
    (h : x.run s = (.ok b, rest)) : (x >>= f).run s = (f b).run rest := by
  rw [run_bind, h]

theorem run_bind_of_error {x : Scan σ ε β} {f : β → Scan σ ε α} {e : ε} {rest : List σ}
    (h : x.run s = (.error e, rest)) : (x >>= f).run s = (.error e, rest) := by
  rw [run_bind, h]

theorem run_accept_true {test : σ → Bool} {otherwise : List σ → ε} {c : σ} (h : test c = true) :
    (accept test otherwise).run (c :: s) = (.ok c, s) := by
  rw [run_accept_cons, if_pos h]

theorem run_accept_false {test : σ → Bool} {otherwise : List σ → ε} (h : s.head?.any test = false) :
    (accept test otherwise).run s = (.error (otherwise s), s) := by
  cases s with
  | nil => rfl
  | cons c s => rw [run_accept_cons, if_neg (by simpa using h)]

theorem exists_cons_of_any_head? {test : σ → Bool} (h : s.head?.any test = true) :
    ∃ c rest, s = c :: rest ∧ test c = true := by
  cases s with
  | nil => simp at h
  | cons c rest => exact ⟨c, rest, rfl, by simpa using h⟩

theorem ends_accept {Q : σ → List σ → Prop} {test : σ → Bool} {otherwise : List σ → ε}
    (taken : ∀ c rest, s = c :: rest → test c = true → Q c rest)
    (refused : s.head?.any test = false → E (otherwise s)) :
    Ends (accept test otherwise) s Q E := by
  unfold Ends
  cases h : s.head?.any test with
  | false =>
    rw [run_accept_false h]
    exact refused h
  | true =>
    obtain ⟨c, rest, rfl, hc⟩ := exists_cons_of_any_head? h
    rw [run_accept_true hc]
    exact taken c rest rfl hc

theorem ends_chain_link {join : σ → Option (α → Scan σ ε α)} {c : σ} {link : α → Scan σ ε α}
    (h : join c = some link) {a : α} :
    Ends (chain join a) (c :: s) Q E ↔
      Ends (link a) s (fun b rest => Ends (chain join b) rest Q E) E := by
  rw [← ends_bind]
  simp [Ends, run_chain_link h]

theorem run_chain_done {join : σ → Option (α → Scan σ ε α)} {a : α}
    (h : ∀ c ∈ s.head?, join c = none) : (chain join a).run s = (.ok a, s) := by
  cases s with
  | nil => exact run_chain_nil join a
  | cons c s => exact run_chain_stop (h c rfl) a s

theorem ends_chain_done {join : σ → Option (α → Scan σ ε α)} {a : α}
    (h : ∀ c ∈ s.head?, join c = none) : Ends (chain join a) s Q E ↔ Q a s := by
  rw [Ends, run_chain_done h]

theorem ends_chain {join : σ → Option (α → Scan σ ε α)} {a : α} (start : Q a s)
    (step : ∀ a c rest link, Q a (c :: rest) → join c = some link → Ends (link a) rest Q E) :
    Ends (chain join a) s Q E := by
  change match chainFrom join a s with
    | (.ok b, rest) => Q b rest
    | (.error e, _) => E e
  fun_induction chainFrom join a s with
  | case1 => exact start
  | case2 => exact start
  | case3 a c s link joined b rest ran ih =>
    have kept := step a c s link start joined
    simp only [Ends, ran] at kept
    exact ih kept
  | case4 a c s link joined e rest ran =>
    have failed := step a c s link start joined
    simpa only [Ends, ran] using failed

theorem Ends.stopped {join : σ → Option (α → Scan σ ε α)} {a : α} (h : Ends (chain join a) s Q E) :
    Ends (chain join a) s (fun b rest => Q b rest ∧ ∀ c ∈ rest.head?, join c = none) E := by
  change match chainFrom join a s with
    | (.ok b, rest) => Q b rest
    | (.error e, _) => E e at h
  change match chainFrom join a s with
    | (.ok b, rest) => Q b rest ∧ ∀ c ∈ rest.head?, join c = none
    | (.error e, _) => E e
  fun_induction chainFrom join a s with
  | case1 => exact ⟨h, by simp⟩
  | case2 a c s stop => exact ⟨h, by simpa using stop⟩
  | case3 a c s link joined b rest ran ih => exact ih h
  | case4 => exact h

end Ends

theorem run_map (f : α → β) (x : Scan σ ε α) (s : List σ) :
    (f <$> x).run s = ((x.run s).1.map f, (x.run s).2) := by
  rw [map_eq_pure_bind, run_bind]
  cases x.run s with
  | mk result rest => cases result <;> rfl

theorem skip_skip (m n : Nat) :
    (skip m >>= fun _ => skip n : Scan σ ε Unit) = skip (m + n) := by
  ext1 s
  simp only [run_bind, run_skip, List.drop_drop]

theorem map_chain {f : α → β} {join : σ → Option (α → Scan σ ε α)}
    {joinMap : σ → Option (β → Scan σ ε β)}
    (links : ∀ c, join c = none ∧ joinMap c = none ∨
      ∃ link linkMap, join c = some link ∧ joinMap c = some linkMap ∧
        ∀ a, f <$> link a = linkMap (f a)) (a : α) :
    f <$> chain join a = chain joinMap (f a) := by
  ext1 s
  induction n : s.length using Nat.strongRecOn generalizing a s with
  | ind n ih =>
    subst n
    cases s with
    | nil => simp [run_map, Except.map]
    | cons c s =>
      obtain ⟨stop, stopMap⟩ | ⟨link, linkMap, joined, joinedMap, linked⟩ := links c
      · rw [run_map, run_chain_stop stop, run_chain_stop stopMap]
        rfl
      · rw [run_map, run_chain_link joined, run_chain_link joinedMap, run_bind, run_bind, ← linked a,
          run_map]
        have shorter := ((link a).suffix s).length_le
        cases hx : (link a).run s with
        | mk result rest =>
          rw [hx] at shorter
          cases result with
          | error e => rfl
          | ok b =>
            rw [← run_map]
            exact ih rest.length (Nat.lt_succ_of_le shorter) b rest rfl

/-- From `s` and from `t` on, both end in values or both in errors. -/
def EndTogether (x : Scan σ ε α) (y : Scan τ δ β) (s : List σ) (t : List τ)
    (Q : α → β → List σ → List τ → Prop) (E : ε → δ → Prop) : Prop :=
  Ends x s (fun a s' => Ends y t (fun b t' => Q a b s' t') fun _ => False)
    fun e => Ends y t (fun _ _ => False) fun f => E e f

section EndTogether

variable {E : ε → δ → Prop} {s : List σ} {t : List τ}

theorem EndTogether.mono {Q Q' : α → β → List σ → List τ → Prop} {x : Scan σ ε α} {y : Scan τ δ β}
    (h : EndTogether x y s t Q E) (value : ∀ a b s' t', Q a b s' t' → Q' a b s' t') :
    EndTogether x y s t Q' E := by
  refine Ends.imp h fun a s' hy => ?_
  exact Ends.imp hy fun b t' => value a b s' t'

theorem EndTogether.of_ok {Q : α → β → List σ → List τ → Prop} {x : Scan σ ε α} {y : Scan τ δ β}
    {a : α} {b : β} {s' : List σ} {t' : List τ} (hx : x.run s = (.ok a, s'))
    (hy : y.run t = (.ok b, t')) (h : Q a b s' t') : EndTogether x y s t Q E := by
  simpa only [EndTogether, Ends, hx, hy] using h

theorem EndTogether.of_error {Q : α → β → List σ → List τ → Prop} {x : Scan σ ε α} {y : Scan τ δ β}
    {e : ε} {f : δ} {s' : List σ} {t' : List τ} (hx : x.run s = (.error e, s'))
    (hy : y.run t = (.error f, t')) (h : E e f) : EndTogether x y s t Q E := by
  simpa only [EndTogether, Ends, hx, hy] using h

theorem EndTogether.pure {Q : α → β → List σ → List τ → Prop} {a : α} {b : β} (h : Q a b s t) :
    EndTogether (pure a) (pure b) s t Q E := h

theorem EndTogether.look {Q : List σ → List τ → List σ → List τ → Prop} (h : Q s t s t) :
    EndTogether look look s t Q E := h

theorem EndTogether.skip {Q : Unit → Unit → List σ → List τ → Prop} {n : Nat}
    (h : Q () () (s.drop n) (t.drop n)) : EndTogether (skip n) (skip n) s t Q E := h

theorem EndTogether.takeWhile {Q : List σ → List τ → List σ → List τ → Prop} {test : σ → Bool}
    {other : τ → Bool}
    (h : Q (s.takeWhile test) (t.takeWhile other) (s.dropWhile test) (t.dropWhile other)) :
    EndTogether (takeWhile test) (takeWhile other) s t Q E := h

theorem EndTogether.accept {Q : σ → τ → List σ → List τ → Prop} {test : σ → Bool} {other : τ → Bool}
    {error : List σ → ε} {errorOther : List τ → δ} (same : s.head?.any test = t.head?.any other)
    (taken : ∀ c s' d t', s = c :: s' → t = d :: t' → test c = true → Q c d s' t')
    (refused : E (error s) (errorOther t)) :
    EndTogether (accept test error) (accept other errorOther) s t Q E := by
  cases hs : s.head?.any test with
  | false =>
    rw [hs] at same
    exact .of_error (run_accept_false hs) (run_accept_false same.symm) refused
  | true =>
    rw [hs] at same
    obtain ⟨c, s', rfl, hc⟩ := exists_cons_of_any_head? hs
    obtain ⟨d, t', rfl, hd⟩ := exists_cons_of_any_head? same.symm
    exact .of_ok (run_accept_true hc) (run_accept_true hd) (taken c s' d t' rfl rfl hc)

theorem EndTogether.failWith {Q : α → β → List σ → List τ → Prop} {error : List σ → ε}
    {other : List τ → δ} (h : E (error s) (other t)) :
    EndTogether (failWith error) (failWith other) s t Q E := h

theorem EndTogether.ofExcept {Q : α → β → List σ → List τ → Prop} {x : Except ε α} {y : Except δ β}
    (h : (∃ a b, x = .ok a ∧ y = .ok b ∧ Q a b s t) ∨ ∃ e f, x = .error e ∧ y = .error f ∧ E e f) :
    EndTogether (ofExcept x) (ofExcept y) s t Q E := by
  obtain ⟨a, b, rfl, rfl, h⟩ | ⟨e, f, rfl, rfl, h⟩ := h
  · exact h
  · exact h

theorem EndTogether.bind {Q : α → β → List σ → List τ → Prop} {α' β' : Type} {x : Scan σ ε α'}
    {y : Scan τ δ β'} {f : α' → Scan σ ε α} {g : β' → Scan τ δ β}
    (h : EndTogether x y s t (fun a b s' t' => EndTogether (f a) (g b) s' t' Q E) E) :
    EndTogether (x >>= f) (y >>= g) s t Q E := by
  unfold EndTogether Ends at *
  simp only [run_bind]
  cases hx : x.run s with
  | mk result s' =>
    cases hy : y.run t with
    | mk other t' =>
      rw [hx, hy] at h
      cases result <;> cases other <;> simp_all

theorem EndTogether.suffix {Q : α → β → List σ → List τ → Prop} {x : Scan σ ε α} {y : Scan τ δ β}
    (h : EndTogether x y s t Q E) :
    EndTogether x y s t (fun a b s' t' => Q a b s' t' ∧ s' <:+ s) E :=
  Ends.imp (Ends.suffix h) fun _ _ ⟨hy, left⟩ => Ends.imp hy fun _ _ hq => ⟨hq, left⟩

theorem EndTogether.chain {Q : α → β → List σ → List τ → Prop} {join : σ → Option (α → Scan σ ε α)}
    {joinOther : τ → Option (β → Scan τ δ β)} {a : α} {b : β} (start : Q a b s t)
    (step : ∀ a b s t, Q a b s t →
      ((∀ c ∈ s.head?, join c = none) ∧ ∀ d ∈ t.head?, joinOther d = none) ∨
      ∃ c s' link d t' other, s = c :: s' ∧ join c = some link ∧ t = d :: t' ∧
        joinOther d = some other ∧ EndTogether (link a) (other b) s' t' Q E) :
    EndTogether (chain join a) (chain joinOther b) s t Q E := by
  induction n : s.length using Nat.strongRecOn generalizing a b s t with
  | ind n ih =>
    subst n
    obtain ⟨hs, ht⟩ | ⟨c, s', link, d, t', other, rfl, hc, rfl, hd, linked⟩ := step a b s t start
    · simpa only [EndTogether, ends_chain_done hs, ends_chain_done ht] using start
    · have further : EndTogether (link a >>= Scan.chain join) (other b >>= Scan.chain joinOther)
          s' t' Q E := by
        refine EndTogether.bind (linked.suffix.mono fun a b s'' t'' ⟨hq, left⟩ => ?_)
        exact ih s''.length (Nat.lt_succ_of_le left.length_le) hq rfl
      simpa only [EndTogether, Ends, run_chain_link hc, run_chain_link hd] using further

end EndTogether

/-- From `s` on, the scan fails with one of the errors in `G`. -/
def GivesUp (G : ε → Prop) (x : Scan σ ε α) (s : List σ) : Prop :=
  ∃ e rest, x.run s = (.error e, rest) ∧ G e

/-- From every list on, `x` does what `y` does, or gives up. -/
def Approximates (G : ε → Prop) (x y : Scan σ ε α) : Prop :=
  ∀ s, GivesUp G x s ∨ x.run s = y.run s

section Approximates

variable {G : ε → Prop}

theorem Approximates.refl (x : Scan σ ε α) : Approximates G x x := fun _ => .inr rfl

theorem Approximates.failWith {error : List σ → ε} (h : ∀ s, G (error s)) (y : Scan σ ε α) :
    Approximates G (Scan.failWith error) y :=
  fun s => .inl ⟨error s, s, rfl, h s⟩

theorem Approximates.delay {x y : Unit → Scan σ ε α} (h : Approximates G (x ()) (y ())) :
    Approximates G (Scan.delay x) (Scan.delay y) := h

theorem Approximates.run_bind {x y : Scan σ ε β} {f g : β → Scan σ ε α} {s : List σ}
    (first : Approximates G x y) (more : ∀ b rest, x.run s = (.ok b, rest) →
      GivesUp G (f b) rest ∨ (f b).run rest = (g b).run rest) :
    GivesUp G (x >>= f) s ∨ (x >>= f).run s = (y >>= g).run s := by
  cases first s with
  | inl gaveUp =>
    obtain ⟨e, rest, failed, given⟩ := gaveUp
    exact .inl ⟨e, rest, by rw [Scan.run_bind, failed], given⟩
  | inr same =>
    rw [GivesUp, Scan.run_bind, Scan.run_bind, ← same]
    cases hx : x.run s with
    | mk result rest =>
      cases result with
      | error e => exact .inr rfl
      | ok b => exact more b rest hx

theorem Approximates.bind {x y : Scan σ ε β} {f g : β → Scan σ ε α} (first : Approximates G x y)
    (more : ∀ b, Approximates G (f b) (g b)) : Approximates G (x >>= f) (y >>= g) :=
  fun _ => first.run_bind fun b rest _ => more b rest

theorem Approximates.chain {join joinMore : σ → Option (α → Scan σ ε α)}
    (links : ∀ c, join c = none ∧ joinMore c = none ∨
      ∃ link linkMore, join c = some link ∧ joinMore c = some linkMore ∧
        ∀ a, Approximates G (link a) (linkMore a)) (a : α) :
    Approximates G (Scan.chain join a) (Scan.chain joinMore a) := by
  intro s
  induction n : s.length using Nat.strongRecOn generalizing a s with
  | ind n ih =>
    subst n
    cases s with
    | nil => exact .inr (by rw [run_chain_nil, run_chain_nil])
    | cons c s =>
      obtain ⟨stop, stopMore⟩ | ⟨link, linkMore, joined, joinedMore, linked⟩ := links c
      · exact .inr (by rw [run_chain_stop stop, run_chain_stop stopMore])
      · rw [GivesUp, run_chain_link joined, run_chain_link joinedMore]
        refine (linked a).run_bind fun b rest ran => ?_
        have shorter := ((link a).suffix s).length_le
        rw [ran] at shorter
        exact ih rest.length (Nat.lt_succ_of_le shorter) b rest rfl

end Approximates

/-- From `s` on, `x` comes to the end of the list or gives up with an error of `G`; or what it does
is foretold of `y` on a longer list: the same value with as much more left, or some error of `B`. -/
def Foretells (G B : ε → Prop) (x y : Scan σ ε α) (s more : List σ) : Prop :=
  Ends x s
    (fun a rest => rest = [] ∨ Ends y (s ++ more) (fun b rest' => b = a ∧ rest' = rest ++ more)
      fun _ => False)
    fun e => G e ∨ Ends y (s ++ more) (fun _ _ => False) B

section Foretells

variable {G B : ε → Prop} {s more : List σ}

theorem Foretells.of_nil {x y : Scan σ ε α} (h : Ends x [] (fun _ _ => True) G) :
    Foretells G B x y [] more :=
  Ends.mono (Ends.suffix h) (fun _ _ ⟨_, left⟩ => .inl (List.suffix_nil.mp left))
    fun _ given => .inl given

theorem Foretells.pure (a : α) : Foretells G B (Pure.pure a) (Pure.pure a) s more :=
  .inr ⟨rfl, rfl⟩

theorem Foretells.ofExcept {r : Except ε α} (h : ∀ e, r = .error e → G e) :
    Foretells G B (Scan.ofExcept r) (Scan.ofExcept r) s more := by
  cases r with
  | ok a => exact .pure a
  | error e => exact .inl (h e rfl)

theorem Foretells.look_bind {f g : List σ → Scan σ ε α}
    (h : Foretells G B (f s) (g (s ++ more)) s more) :
    Foretells G B (look >>= f) (look >>= g) s more := h

theorem Foretells.skip {n : Nat} (le : n ≤ s.length) :
    Foretells G B (skip n) (Scan.skip n) s more :=
  .inr ⟨rfl, List.drop_append_of_le_length le⟩

theorem Foretells.takeWhile (test : σ → Bool) :
    Foretells G B (takeWhile test) (Scan.takeWhile test) s more := by
  by_cases all : s.dropWhile test = []
  · exact .inl all
  · refine .inr ⟨?_, ?_⟩
    · have length := congrArg List.length (List.takeWhile_append_dropWhile (p := test) (l := s))
      rw [List.length_append] at length
      have short : (s.takeWhile test).length ≠ s.length := fun same =>
        all (List.length_eq_zero_iff.mp (by omega))
      rw [List.takeWhile_append, if_neg short]
    · rw [List.dropWhile_append, if_neg (by simpa using all)]

theorem Foretells.accept {test : σ → Bool} {error other : List σ → ε} (atEnd : G (error []))
    (refused : B (other (s ++ more))) :
    Foretells G B (accept test error) (Scan.accept test other) s more := by
  cases s with
  | nil => exact .inl atEnd
  | cons c s =>
    unfold Foretells Ends
    rw [List.cons_append, run_accept_cons, run_accept_cons]
    cases test c with
    | true => exact .inr ⟨rfl, rfl⟩
    | false => exact .inr refused

theorem ends_bind_nil {x : Scan σ ε β} {f : β → Scan σ ε α} (first : Ends x [] (fun _ _ => True) G)
    (next : ∀ b, Ends (f b) [] (fun _ _ => True) G) : Ends (x >>= f) [] (fun _ _ => True) G := by
  refine ends_bind.mpr (Ends.imp (Ends.suffix first) ?_)
  rintro b rest ⟨-, left⟩
  rw [List.suffix_nil.mp left]
  exact next b

/-- What goes on from a value at the end of the list must give up there, or be done. -/
theorem Foretells.bind {x y : Scan σ ε β} {f g : β → Scan σ ε α} (first : Foretells G B x y s more)
    (stop : ∀ b, Ends (f b) [] (fun _ _ => True) G)
    (next : ∀ b rest, rest <:+ s → Foretells G B (f b) (g b) rest more) :
    Foretells G B (x >>= f) (y >>= g) s more := by
  refine ends_bind.mpr (Ends.mono (Ends.suffix first) ?_ ?_)
  · rintro b rest ⟨nothing | same, left⟩
    · subst nothing
      refine Ends.mono (Ends.suffix (stop b)) ?_ fun e given => .inl given
      exact fun a rest' ⟨_, left'⟩ => .inl (List.suffix_nil.mp left')
    · refine Ends.mono (next b rest left) ?_ ?_
      · rintro a rest' (nothing | further)
        · exact .inl nothing
        · refine .inr (ends_bind.mpr (Ends.imp same ?_))
          rintro _ _ ⟨rfl, rfl⟩
          exact further
      · rintro e (given | failed)
        · exact .inl given
        · refine .inr (ends_bind.mpr (Ends.mono same ?_ fun _ => False.elim))
          rintro _ _ ⟨rfl, rfl⟩
          exact failed
  · rintro e (given | failed)
    · exact .inl given
    · exact .inr (ends_bind.mpr (Ends.imp failed fun _ _ => False.elim))

theorem Foretells.chain {join joinMore : σ → Option (α → Scan σ ε α)} (a : α)
    (links : ∀ c rest, c :: rest <:+ s → join c = none ∧ joinMore c = none ∨
      ∃ link linkMore, join c = some link ∧ joinMore c = some linkMore ∧
        ∀ a, Foretells G B (link a) (linkMore a) rest more) :
    Foretells G B (Scan.chain join a) (Scan.chain joinMore a) s more := by
  induction n : s.length using Nat.strongRecOn generalizing a s with
  | ind n ih =>
    subst n
    cases s with
    | nil => exact (ends_chain_done (by simp)).mpr (.inl rfl)
    | cons c s =>
      obtain ⟨stop, stopMore⟩ | ⟨link, linkMore, joined, joinedMore, linked⟩ :=
        links c s (List.suffix_refl _)
      · refine (ends_chain_done (by simpa using stop)).mpr (.inr ?_)
        exact (ends_chain_done (by simpa using stopMore)).mpr ⟨rfl, rfl⟩
      · have further : Foretells G B (link a >>= Scan.chain join)
            (linkMore a >>= Scan.chain joinMore) s more := by
          refine (linked a).bind (fun b => (ends_chain_done (by simp)).mpr trivial) ?_
          intro b rest left
          refine ih rest.length (Nat.lt_succ_of_le left.length_le) b ?_ rfl
          exact fun c' rest' here => links c' rest' (here.trans (left.trans (List.suffix_cons c s)))
        simpa only [Foretells, Ends, List.cons_append, run_chain_link joined,
          run_chain_link joinedMore] using further

end Foretells

end Abacus.Scan
