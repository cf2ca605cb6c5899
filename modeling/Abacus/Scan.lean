/-!
Readers of a list of symbols, from the left. A scan leaves a suffix of what it was given, also when
it fails: that law is part of the type, and it is what makes `chain`, the one loop, end. The lemmas
`run_…` say what each scan does to the list; nothing here knows what is read.
-/

namespace Abacus

structure Scan (σ ε α : Type) where
  run : List σ → Except ε α × List σ
  suffix : ∀ s, (run s).2 <:+ s

namespace Scan

variable {σ ε α β : Type}

protected def pure (a : α) : Scan σ ε α where
  run s := (.ok a, s)
  suffix := List.suffix_refl

protected def bind (x : Scan σ ε α) (f : α → Scan σ ε β) : Scan σ ε β where
  run s :=
    match x.run s with
    | (.ok a, rest) => (f a).run rest
    | (.error e, rest) => (.error e, rest)
  suffix s := by
    have h := x.suffix s
    split
    · next a rest eq =>
      rw [eq] at h
      exact ((f a).suffix rest).trans h
    · next e rest eq =>
      rwa [eq] at h

instance : Monad (Scan σ ε) where
  pure := Scan.pure
  bind := Scan.bind

@[simp] theorem run_pure (a : α) (s : List σ) : (pure a : Scan σ ε α).run s = (.ok a, s) := rfl

theorem run_bind (x : Scan σ ε α) (f : α → Scan σ ε β) (s : List σ) :
    (x >>= f).run s =
      match x.run s with
      | (.ok a, rest) => (f a).run rest
      | (.error e, rest) => (.error e, rest) := rfl

@[ext] theorem ext {x y : Scan σ ε α} (h : ∀ s, x.run s = y.run s) : x = y := by
  cases x
  cases y
  congr
  exact funext h

private theorem bind_id (x : Scan σ ε α) : (x >>= fun a => pure (id a)) = x := by
  ext1 s
  rw [run_bind]
  rcases x.run s with ⟨_ | _, _⟩ <;> rfl

private theorem bind_bind {γ : Type} (x : Scan σ ε α) (f : α → Scan σ ε β) (g : β → Scan σ ε γ) :
    x >>= f >>= g = x >>= fun a => f a >>= g := by
  ext1 s
  simp only [run_bind]
  rcases x.run s with ⟨_ | _, _⟩ <;> rfl

instance : LawfulMonad (Scan σ ε) :=
  .mk' _ bind_id (fun _ _ => rfl) bind_bind

def failWith (error : List σ → ε) : Scan σ ε α where
  run s := (.error (error s), s)
  suffix := List.suffix_refl

def fail (e : ε) : Scan σ ε α :=
  failWith fun _ => e

def ofExcept : Except ε α → Scan σ ε α
  | .ok a => pure a
  | .error e => fail e

@[simp] theorem run_fail (e : ε) (s : List σ) : (fail e : Scan σ ε α).run s = (.error e, s) := rfl

@[simp] theorem run_ofExcept (r : Except ε α) (s : List σ) :
    (ofExcept r : Scan σ ε α).run s = (r, s) := by
  cases r <;> rfl

def look : Scan σ ε (List σ) where
  run s := (.ok s, s)
  suffix := List.suffix_refl

def skip (n : Nat) : Scan σ ε Unit where
  run s := (.ok (), s.drop n)
  suffix := List.drop_suffix n

def accept (test : σ → Bool) (otherwise : List σ → ε) : Scan σ ε σ where
  run
    | [] => (.error (otherwise []), [])
    | a :: s => if test a then (.ok a, s) else (.error (otherwise (a :: s)), a :: s)
  suffix s := by
    split
    · exact List.suffix_refl _
    · next a s =>
      split
      · exact List.suffix_cons a s
      · exact List.suffix_refl _

def takeWhile (test : σ → Bool) : Scan σ ε (List σ) where
  run s := (.ok (s.takeWhile test), s.dropWhile test)
  suffix _ := List.dropWhile_suffix test

@[simp] theorem run_skip (n : Nat) (s : List σ) :
    (skip n : Scan σ ε Unit).run s = (.ok (), s.drop n) := rfl

@[simp] theorem run_takeWhile (test : σ → Bool) (s : List σ) :
    (takeWhile test : Scan σ ε (List σ)).run s = (.ok (s.takeWhile test), s.dropWhile test) := rfl

theorem run_accept_cons (test : σ → Bool) (otherwise : List σ → ε) (a : σ) (s : List σ) :
    (accept test otherwise).run (a :: s) =
      if test a then (.ok a, s) else (.error (otherwise (a :: s)), a :: s) := rfl

/-- Builds the scan only when it is run. -/
def delay (x : Unit → Scan σ ε α) : Scan σ ε α where
  run s := (x ()).run s
  suffix s := (x ()).suffix s

@[simp] theorem run_delay (x : Unit → Scan σ ε α) (s : List σ) : (delay x).run s = (x ()).run s := rfl

def chainFrom (join : σ → Option (α → Scan σ ε α)) (a : α) : List σ → Except ε α × List σ
  | [] => (.ok a, [])
  | c :: s =>
    match join c with
    | none => (.ok a, c :: s)
    | some link =>
      match _h : (link a).run s with
      | (.ok b, rest) => chainFrom join b rest
      | (.error e, rest) => (.error e, rest)
termination_by s => s.length
decreasing_by
  have shorter : rest.length ≤ s.length := by
    have := ((link a).suffix s).length_le
    rwa [_h] at this
  exact Nat.lt_succ_of_le shorter

theorem chainFrom_suffix (join : σ → Option (α → Scan σ ε α)) (a : α) (s : List σ) :
    (chainFrom join a s).2 <:+ s := by
  fun_induction chainFrom join a s with
  | case1 => exact List.suffix_refl _
  | case2 => exact List.suffix_refl _
  | case3 a c s link _ b rest h ih =>
    have := (link a).suffix s
    rw [h] at this
    exact (ih.trans this).trans (List.suffix_cons c s)
  | case4 a c s link _ e rest h =>
    have := (link a).suffix s
    rw [h] at this
    exact this.trans (List.suffix_cons c s)

/-- Goes on from `a` as long as the next symbol is a joint: takes it and reads the link after it. -/
def chain (join : σ → Option (α → Scan σ ε α)) (a : α) : Scan σ ε α where
  run := chainFrom join a
  suffix := chainFrom_suffix join a

@[simp] theorem run_chain_nil (join : σ → Option (α → Scan σ ε α)) (a : α) :
    (chain join a).run [] = (.ok a, []) := by
  simp [chain, chainFrom]

theorem run_chain_stop {join : σ → Option (α → Scan σ ε α)} {c : σ} (h : join c = none) (a : α)
    (s : List σ) : (chain join a).run (c :: s) = (.ok a, c :: s) := by
  simp [chain, chainFrom, h]

theorem run_chain_link {join : σ → Option (α → Scan σ ε α)} {c : σ} {link : α → Scan σ ε α}
    (h : join c = some link) (a : α) (s : List σ) :
    (chain join a).run (c :: s) = ((link a) >>= chain join).run s := by
  rw [run_bind]
  show chainFrom join a (c :: s) = _
  rw [chainFrom]
  simp only [h]
  split <;> simp_all [chain]

end Scan

end Abacus
