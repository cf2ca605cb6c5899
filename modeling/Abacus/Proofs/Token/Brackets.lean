import Mathlib
import Abacus.Highlight

/-!
Brackets of a line that stay open. A bracket is closed by the next one after it with nothing but
pairs between the two. The colours follow the number of brackets that are not closed; whether a line
is held back depends on that number less the number of closing brackets that close nothing, wherever
these stand, and so the two differ exactly if there are brackets of both sorts.
-/

namespace Abacus

namespace Token

/-- Nothing but pairs, one in another or one after another, and what is no bracket. -/
inductive Paired (o c : Kind) : List Kind → Prop
  | nil : Paired o c []
  | other {k : Kind} {ks : List Kind} : k ≠ o → k ≠ c → Paired o c ks → Paired o c (k :: ks)
  | pair {ks ls : List Kind} : Paired o c ks → Paired o c ls → Paired o c (o :: (ks ++ c :: ls))

/-- A bracket `o` that stands before `ks` has its partner in it. -/
def HasPartner (o c : Kind) (ks : List Kind) : Prop :=
  ∃ inside after, ks = inside ++ c :: after ∧ Paired o c inside

def tally (up down : Kind) (n : Nat) (k : Kind) : Nat :=
  if k = up then n + 1 else if k = down then n - 1 else n

/-- The brackets `c` that have no partner, counted from the end. -/
def excess (o c : Kind) (ks : List Kind) : Nat :=
  ks.foldr (fun k n => tally c o n k) 0

section

variable {o c k : Kind} {ks ls : List Kind}

theorem excess_closing (o c : Kind) (ks : List Kind) : excess o c (c :: ks) = excess o c ks + 1 :=
  if_pos rfl

theorem excess_opening (distinct : o ≠ c) (ks : List Kind) :
    excess o c (o :: ks) = excess o c ks - 1 :=
  (if_neg distinct).trans (if_pos rfl)

theorem excess_other (ho : k ≠ o) (hc : k ≠ c) (ks : List Kind) :
    excess o c (k :: ks) = excess o c ks :=
  (if_neg hc).trans (if_neg ho)

theorem Paired.excess_append (distinct : o ≠ c) (h : Paired o c ks) (ls : List Kind) :
    excess o c (ks ++ ls) = excess o c ls := by
  induction h generalizing ls with
  | nil => rfl
  | other ho hc _ ih => rw [List.cons_append, excess_other ho hc, ih]
  | pair _ _ ihInside ihAfter =>
    rw [List.cons_append, excess_opening distinct, List.append_assoc, ihInside, List.cons_append,
      excess_closing, ihAfter, Nat.add_sub_cancel]

theorem hasPartner_iff (distinct : o ≠ c) : HasPartner o c ks ↔ 0 < excess o c ks := by
  constructor
  · rintro ⟨inside, after, rfl, paired⟩
    rw [paired.excess_append distinct, excess_closing]
    exact Nat.succ_pos _
  · intro some_closing
    -- a bracket that opens on the way has its own partner first, and both are left behind at once
    induction n : ks.length using Nat.strongRecOn generalizing ks with
    | ind n ih =>
      subst n
      cases ks with
      | nil => exact absurd some_closing (Nat.lt_irrefl 0)
      | cons k ks =>
        by_cases hc : k = c
        · exact ⟨[], ks, by rw [hc, List.nil_append], .nil⟩
        by_cases ho : k = o
        · -- the first closing bracket in excess is the partner of `k`, the next one is asked for
          subst ho
          rw [excess_opening distinct] at some_closing
          have two_closing : 0 < excess k c ks := by omega
          obtain ⟨inside, after, rfl, paired⟩ := ih ks.length (by simp) two_closing rfl
          rw [paired.excess_append distinct, excess_closing, Nat.add_sub_cancel] at some_closing
          obtain ⟨inside', after', rfl, paired'⟩ := ih after.length (by simp; omega) some_closing rfl
          exact ⟨k :: (inside ++ c :: inside'), after', by simp, .pair paired paired'⟩
        · rw [excess_other ho hc] at some_closing
          obtain ⟨inside, after, rfl, paired⟩ := ih ks.length (by simp) some_closing rfl
          exact ⟨k :: inside, after, rfl, .other ho hc paired⟩

instance : DecidablePred (HasPartner .opening .closing) := fun ks =>
  decidable_of_iff (0 < excess .opening .closing ks) (hasPartner_iff (by decide)).symm

instance : DecidablePred (HasPartner .closing .opening) := fun ks =>
  decidable_of_iff (0 < excess .closing .opening ks) (hasPartner_iff (by decide)).symm

def unpaired (o c : Kind) [DecidablePred (HasPartner o c)] : List Kind → Nat
  | [] => 0
  | k :: ks => unpaired o c ks + if k = o ∧ ¬ HasPartner o c ks then 1 else 0

variable [DecidablePred (HasPartner o c)]

theorem unpaired_opening (distinct : o ≠ c) (ks : List Kind) :
    unpaired o c (o :: ks) = unpaired o c ks + if excess o c ks = 0 then 1 else 0 := by
  simp only [unpaired, true_and, hasPartner_iff distinct, Nat.pos_iff_ne_zero, not_not]

theorem unpaired_other (h : k ≠ o) (ks : List Kind) : unpaired o c (k :: ks) = unpaired o c ks := by
  simp [unpaired, h]

/-- The first closing brackets in excess close what was open before. -/
theorem foldl_tally (distinct : o ≠ c) (depth : Nat) (ks : List Kind) :
    ks.foldl (tally o c) depth = unpaired o c ks + (depth - excess o c ks) := by
  induction ks generalizing depth with
  | nil => simp [unpaired, excess]
  | cons k ks ih =>
    rw [List.foldl_cons, ih]
    by_cases ho : k = o
    · subst ho
      rw [unpaired_opening distinct, excess_opening distinct, tally, if_pos rfl]
      split_ifs <;> omega
    by_cases hc : k = c
    · subst hc
      rw [unpaired_other ho, excess_closing, tally, if_neg ho, if_pos rfl]
      omega
    · rw [unpaired_other ho, excess_other ho hc, tally, if_neg ho, if_neg hc]

theorem unpaired_add_count (distinct : o ≠ c) (ks : List Kind) :
    unpaired o c ks + ks.count c = ks.count o + excess o c ks := by
  induction ks with
  | nil => rfl
  | cons k ks ih =>
    by_cases ho : k = o
    · subst ho
      rw [unpaired_opening distinct, excess_opening distinct, List.count_cons_self,
        List.count_cons_of_ne distinct]
      split_ifs <;> omega
    by_cases hc : k = c
    · subst hc
      rw [unpaired_other ho, excess_closing, List.count_cons_self, List.count_cons_of_ne ho]
      omega
    · rw [unpaired_other ho, excess_other ho hc, List.count_cons_of_ne hc, List.count_cons_of_ne ho,
        ih]

theorem unpaired_reverse (distinct : o ≠ c) (ks : List Kind) :
    unpaired o c ks.reverse = excess c o ks := by
  have count := foldl_tally distinct 0 ks.reverse
  rw [Nat.zero_sub, Nat.add_zero, List.foldl_reverse] at count
  exact count.symm

end

def unclosed (ts : List Token) : Nat :=
  unpaired .opening .closing (ts.map kind)

def stray (ts : List Token) : Nat :=
  unpaired .closing .opening (ts.map kind).reverse

theorem unclosed_eq_foldl (ts : List Token) :
    unclosed ts = (ts.map kind).foldl (tally .opening .closing) 0 := by
  rw [foldl_tally (by decide), Nat.zero_sub, Nat.add_zero, unclosed]

theorem count_eq (kind : Kind) (ts : List Token) : count kind ts = (ts.map Token.kind).count kind := by
  rw [List.count, List.countP_map]
  rfl

theorem unclosed_add_count (ts : List Token) :
    unclosed ts + count .closing ts = count .opening ts + stray ts := by
  rw [count_eq, count_eq, stray, unpaired_reverse (by decide)]
  exact unpaired_add_count (by decide) (ts.map kind)

theorem count_unknown_eq_zero_iff {ts : List Token} :
    count .unknown ts = 0 ↔ ∀ t ∈ ts, t.kind ≠ .unknown := by
  simp [count]

theorem openBrackets?_of_known {ts : List Token} (known : ∀ t ∈ ts, t.kind ≠ .unknown) :
    openBrackets? ts = some (unclosed ts - stray ts) := by
  have brackets := unclosed_add_count ts
  rw [openBrackets?, if_pos (count_unknown_eq_zero_iff.mpr known), Option.some.injEq]
  omega

theorem openBrackets?_of_unknown {ts : List Token} (unknown : ∃ t ∈ ts, t.kind = .unknown) :
    openBrackets? ts = none := by
  refine if_neg fun nothing => ?_
  obtain ⟨t, there, kind⟩ := unknown
  exact count_unknown_eq_zero_iff.mp nothing t there kind

end Token

namespace Highlight

open Token

theorem depthAfter_eq (depth : Nat) (kind : Kind) :
    depthAfter depth kind = tally .opening .closing depth kind := by
  cases kind <;> rfl

theorem parts_append (depth : Nat) (ts us : List Token) : parts depth (ts ++ us) =
    parts depth ts ++ parts (ts.foldl (fun depth t => depthAfter depth t.kind) depth) us := by
  induction ts generalizing depth with
  | nil => rfl
  | cons t ts ih => rw [List.cons_append, parts, ih, parts, List.cons_append, List.foldl_cons]

theorem foldl_depthAfter (ts : List Token) :
    ts.foldl (fun depth t => depthAfter depth t.kind) 0 = unclosed ts := by
  rw [unclosed_eq_foldl, List.foldl_map]
  simp only [depthAfter_eq]

theorem depth_ofLine (line : String) :
    (lexemes 0 line.toList).foldl (fun depth t => depthAfter depth t.kind) 0 =
      unclosed (ofLine line) := by
  rw [← foldl_depthAfter, ofLine, List.foldl_filter]
  congr
  funext depth t
  by_cases gap : t.kind = .gap
  · simp [gap, depthAfter]
  · simp [gap]

end Highlight

namespace Token

/-- The colours go on at the number of brackets that are not closed. If every lexeme is known the
line is held back as long as these are more than the closing brackets that close nothing, so the
number of open brackets is right unless there are some of both; otherwise it is unknown and the line
is not held back. -/
theorem openBrackets?_ofLine (line : String) :
    (∀ more, Highlight.parts 0 (lexemes 0 line.toList ++ more) =
      Highlight.line line ++ Highlight.parts (unclosed (ofLine line)) more) ∧
    ((∀ t ∈ ofLine line, t.kind ≠ .unknown) →
      openBrackets? (ofLine line) = some (unclosed (ofLine line) - stray (ofLine line)) ∧
      (openBrackets? (ofLine line) = some (unclosed (ofLine line)) ↔
        stray (ofLine line) = 0 ∨ unclosed (ofLine line) = 0) ∧
      (isIncomplete (ofLine line) = true ↔ stray (ofLine line) < unclosed (ofLine line))) ∧
    ((∃ t ∈ ofLine line, t.kind = .unknown) →
      openBrackets? (ofLine line) = none ∧ isIncomplete (ofLine line) = false) := by
  refine ⟨fun more => ?_, fun known => ?_, fun unknown => ?_⟩
  · rw [Highlight.parts_append, Highlight.depth_ofLine, Highlight.line]
  · have counted := openBrackets?_of_known known
    refine ⟨counted, ?_, ?_⟩
    · rw [counted, Option.some.injEq]
      omega
    · rw [isIncomplete, counted, Option.any_some, decide_eq_true_eq]
      omega
  · have uncounted := openBrackets?_of_unknown unknown
    exact ⟨uncounted, by rw [isIncomplete, uncounted, Option.any_none]⟩

theorem openBrackets?_root_and_letter :
    ((∀ t ∈ ofLine "sqrt((1)", t.kind ≠ .unknown) ∧ unclosed (ofLine "sqrt((1)") = 1 ∧
      openBrackets? (ofLine "sqrt((1)") = some 1 ∧ isIncomplete (ofLine "sqrt((1)") = true) ∧
    (∃ t ∈ ofLine "(x", t.kind = .unknown) ∧
      openBrackets? (ofLine "(x") = none ∧ isIncomplete (ofLine "(x") = false := by
  have known : ∀ t ∈ ofLine "sqrt((1)", t.kind ≠ .unknown := by decide +kernel
  have unknown : ∃ t ∈ ofLine "(x", t.kind = .unknown := by decide +kernel
  have one : unclosed (ofLine "sqrt((1)") = 1 ∧ stray (ofLine "sqrt((1)") = 0 := by decide +kernel
  obtain ⟨-, right, held⟩ := (openBrackets?_ofLine "sqrt((1)").2.1 known
  refine ⟨⟨known, one.1, ?_, held.mpr ?_⟩, unknown, (openBrackets?_ofLine "(x").2.2 unknown⟩
  · rw [← one.1]
    exact right.mpr (.inl one.2)
  · rw [one.1, one.2]
    exact Nat.one_pos

/-- The bracket that closes nothing is set off against the one after it, which stays open. -/
theorem openBrackets?_closing_before_opening :
    (∀ t ∈ ofLine ")(", t.kind ≠ .unknown) ∧ unclosed (ofLine ")(") = 1 ∧
      openBrackets? (ofLine ")(") = some 0 ∧ isIncomplete (ofLine ")(") = false := by
  decide +kernel

end Token

end Abacus
